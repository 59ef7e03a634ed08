/-
# The calls: `mm_malloc`, `mm_free`, `mm_realloc`

The word-level calls do to the sequence of blocks what `SeqStep` says.  A call
that needs more memory than `mem_sbrk` gives returns null and changes nothing.  A call
that would form a free block of more than `2 ^ 24` bytes (`Forms`) does not return: there
is no list for that block.

The specs are about the calls with their record of events, and about all heaps with the
same blocks and lists at once; those of the calls themselves follow by forgetting the
events (`Call.erases`).
-/
import CsappLabs.BlockSeq
import CsappLabs.FilingOrder

open WordMemory LinkedChain Layout Effects Prog

namespace Malloc

/-! ## `mm_malloc` -/

theorem maxRequest_eq : maxRequest = 4294967280 := by norm_num [maxRequest]

/-- The rounding of `mm_malloc` is exact for requests up to `maxRequest`. -/
theorem adjustSize_eq {n : ℕ} (hmax : n ≤ maxRequest) : adjustSize n = blockSize n := by
  have hval := maxRequest_eq
  unfold adjustSize blockSize u32
  change (if n ≤ 8 then 2 * 8 else (8 * ((n + 8 + (8 - 1)) % 2 ^ 32 / 8)) % 2 ^ 32) = _
  split_ifs with hsmall
  · omega
  · have h1 : (n + 8 + (8 - 1)) % 2 ^ 32 = n + 15 := by omega
    rw [h1]
    omega

namespace Rep

variable {h : Heap} {bs : List Block} {L : ℕ → List ℕ}

/-- The break of a heap is that of every heap with as many blocks. -/
theorem memBrk_eq {g : Heap} {L' : ℕ → List ℕ} (hr : Rep h bs L) (hg : Rep g bs L') :
    g.memBrk = h.memBrk := hg.brk.trans hr.brk.symm

end Rep

/-- `mm_malloc` takes the block that `find_fit` found. -/
theorem mmMalloc_fit {h : Heap} {n bp : ℕ} (hn : 0 < n) (hmax : n ≤ maxRequest)
    (hfind : findFit h (blockSize n) = some bp) (hbp : bp ≠ 0) :
    Logged.mmMalloc h n = Logged.place h bp (blockSize n) := by
  have hn0 : n ≠ 0 := by omega
  simp only [Logged.mmMalloc, hn0, if_false, adjustSize_eq hmax, hfind, require_some,
    Prog.pure_bind, ne_eq, hbp, not_false_eq_true, if_true]

/-- `find_fit` found nothing: `mm_malloc` extends the heap. -/
theorem mmMalloc_extend {h : Heap} {n : ℕ} (hn : 0 < n) (hmax : n ≤ maxRequest)
    (hfind : findFit h (blockSize n) = some 0) :
    Logged.mmMalloc h n = (do
      let (h, bp) ← Logged.extendHeap h (blockSize n / WSIZE)
      if bp = 0 then pure (h, 0) else Logged.place h bp (blockSize n)) := by
  have hn0 : n ≠ 0 := by omega
  simp only [Logged.mmMalloc, hn0, if_false, adjustSize_eq hmax, hfind, require_some,
    Prog.pure_bind, ne_eq, not_true_eq_false, if_false]

theorem blockSize_lt {n : ℕ} (hmax : n ≤ maxRequest) : blockSize n < 2 ^ 32 := by
  have hval := maxRequest_eq
  unfold blockSize
  omega

/-- The block that `find_fit` found, or that there is none, for a step of `mm_malloc`. -/
def Found (h : Heap) (n q : ℕ) : Prop :=
  findFit h (blockSize n) = some (q + 8) ∨ findFit h (blockSize n) = some 0

namespace Rep

variable {h : Heap} {bs : List Block} {L : ℕ → List ℕ}

/-- `mm_malloc` with a free block that is large enough. -/
theorem mmMalloc_taken {xs ys : List Block} {s n : ℕ} (hr : Rep h (xs ++ ⟨s, .free⟩ :: ys) L)
    (hs : Settled (xs ++ ⟨s, .free⟩ :: ys)) (hn : 0 < n) (hmax : n ≤ maxRequest)
    (hle : blockSize n ≤ s)
    (hfind : findFit h (blockSize n) = some (420 + total Block.size xs + 12)) :
    ∃ m', Logged.mmMalloc h n = ⟨placedEvents xs s (blockSize n),
        .ok ({ h with mem := m' }, 420 + total Block.size xs + 4)⟩ ∧
      Rep { h with mem := m' } (xs ++ splitBlock s (blockSize n) ++ ys)
        (placedLists L xs s (blockSize n)) ∧
      PayloadEq (xs ++ ⟨s, .free⟩ :: ys) h.mem m' := by
  have hys : (nextBlock ys).tag = .alloc := by
    obtain ⟨-, hright, -⟩ := settled_append.mp hs
    obtain ⟨-, hys, hapart⟩ := settled_cons.mp hright
    exact Tag.eq_alloc hys.next_ne_loose fun hf => hapart ⟨rfl, hf⟩
  obtain ⟨m₁, hpl, hr₁, hpay₁⟩ := hr.place_spec hys (blockSize_mod n) (le_blockSize n).2 hle
  refine ⟨m₁, ?_, hr₁, hpay₁⟩
  rw [mmMalloc_fit hn hmax hfind (by omega)]
  exact hpl

/-- The events of `mm_malloc` when it extends the heap. -/
def grownEvents (h : Heap) (xs l : List Block) (asize : ℕ) : List HeapEvent :=
  [.sbrk h.memBrk (toInt asize) h.memBrk (h.memBrk + asize),
    .add (420 + total Block.size xs + 12) (total Block.size l + asize)]

/-- `mm_malloc` with no free block that is large enough, and room to extend the heap. -/
theorem mmMalloc_grown {xs l : List Block} {n : ℕ} (hr : Rep h (xs ++ l) L) (hn : 0 < n)
    (hmax : n ≤ maxRequest) (hfind : findFit h (blockSize n) = some 0) (hl : LeftFree xs l)
    (hfit : h.memBrk + blockSize n ≤ MAX_HEAP)
    (hclass : total Block.size l + blockSize n ≤ 2 ^ 24) :
    ∃ m', Logged.mmMalloc h n = ⟨grownEvents h xs l (blockSize n) ++
          placedEvents xs (total Block.size l + blockSize n) (blockSize n),
        .ok ({ h with mem := m', memBrk := h.memBrk + blockSize n },
          420 + total Block.size xs + 4)⟩ ∧
      Rep { h with mem := m', memBrk := h.memBrk + blockSize n }
        (xs ++ splitBlock (total Block.size l + blockSize n) (blockSize n))
        (placedLists (coalescedLists L xs l [] (blockSize n)) xs
          (total Block.size l + blockSize n) (blockSize n)) ∧
      Filed (grownEvents h xs l (blockSize n)) L (coalescedLists L xs l [] (blockSize n)) ∧
      PayloadEq (xs ++ l) h.mem m' := by
  have hmod := blockSize_mod n
  have hmin := (le_blockSize n).2
  obtain ⟨m₁, hext, hr₁, hpay₁⟩ := hr.extendHeap_spec hl hmod hmin hfit hclass
  obtain ⟨m₂, hpl, hr₂, hpay₂⟩ := hr₁.place_spec rfl hmod hmin (by omega)
  refine ⟨m₂, ?_, by simpa using hr₂, hr₁.filed_coalesced.sbrk _ _ _ _, ?_⟩
  · have hbp : ¬ 420 + total Block.size xs + 12 = 0 := by omega
    rw [mmMalloc_extend hn hmax hfind, hext, bind_of_ok rfl]
    dsimp only
    rw [if_neg hbp, hpl]
    rfl
  · refine hpay₁.trans ?_ hpay₂
    intro p s hp
    rw [placed_append, List.mem_append] at hp ⊢
    rcases hp with hp | hp
    · exact Or.inl hp
    · exact absurd rfl (hl.tag _ (mem_of_mem_placed hp))

/-- `mm_malloc` when the last block would get too large for its list. -/
theorem mmMalloc_over {xs l : List Block} {n : ℕ} (hr : Rep h (xs ++ l) L) (hn : 0 < n)
    (hmax : n ≤ maxRequest) (hfind : findFit h (blockSize n) = some 0) (hl : LeftFree xs l)
    (hfit : h.memBrk + blockSize n ≤ MAX_HEAP)
    (hbig : 2 ^ 24 < total Block.size l + blockSize n) :
    Logged.mmMalloc h n = ⟨grownEvents h xs l (blockSize n), .error ()⟩ := by
  rw [mmMalloc_extend hn hmax hfind,
    hr.extendHeap_over hl (blockSize_mod n) (le_blockSize n).2 hfit hbig]
  rfl

/-- `mm_malloc` when `mem_sbrk` refuses. -/
theorem mmMalloc_refused {n : ℕ} (hr : Rep h bs L) (hn : 0 < n) (hmax : n ≤ maxRequest)
    (hfind : findFit h (blockSize n) = some 0) (hfull : MAX_HEAP < h.memBrk + blockSize n) :
    Logged.mmMalloc h n =
      ⟨[.sbrk h.memBrk (toInt (blockSize n)) minusOne h.memBrk], .ok (h, 0)⟩ := by
  rw [mmMalloc_extend hn hmax hfind,
    hr.extendHeap_refused (blockSize_mod n) (blockSize_lt hmax) hfull]
  rfl

/-- The answer of `find_fit` is that there is none. -/
theorem findFit_none (hr : Rep h bs L) {size : ℕ} (hnone : ∀ s, ⟨s, .free⟩ ∈ bs → s < size) :
    findFit h size = some 0 := by
  rcases hr.findFit_spec size with ⟨hfind, -⟩ | ⟨xs, s, ys, rfl, hle, -⟩
  · exact hfind
  · have := hnone s (by simp)
    omega

/-- **A step of `mm_malloc`** that has room in the heap is done, unless the last block
gets too large for its list; the same in every heap `g` with these blocks and lists. -/
theorem mmMalloc_of_step (hr : Rep h bs L) (hs : Settled bs) {n q : ℕ} {bs' : List Block}
    (hn : 0 < n) (hmax : n ≤ maxRequest) (hstep : MallocStep n bs bs' q) (hfound : Found h n q)
    (hroom : 424 + total Block.size bs' ≤ MAX_HEAP) :
    (∃ L' es, Filed es L L' ∧ ∀ g, Rep g bs L → ∃ g', Logged.mmMalloc g n = ⟨es, .ok (g', q)⟩ ∧
      Rep g' bs' L' ∧ PayloadEq bs g.mem g'.mem) ∨
    ∃ t es b, 2 ^ 24 < t ∧ (∀ s, ⟨s, .free⟩ ∈ bs → s < blockSize n) ∧
      h.memBrk + blockSize n ≤ MAX_HEAP ∧ Extends (blockSize n) bs t ∧ .add b t ∈ es ∧
      ∀ g, Rep g bs L → Logged.mmMalloc g n = ⟨es, .error ()⟩ := by
  have hbrk := hr.brk
  cases hstep with
  | @fit xs ys s hle =>
      have hfind : findFit h (blockSize n) = some (420 + total Block.size xs + 12) := by
        rcases hfound with hfound | hfound
        · exact hfound
        · rcases hr.findFit_spec (blockSize n) with ⟨-, hnone⟩ | ⟨zs, t, ws, -, -, hfind⟩
          · exact absurd (hnone s (by simp)) (by omega)
          · rw [hfind, Option.some.injEq] at hfound
            omega
      refine Or.inl ⟨placedLists L xs s (blockSize n), placedEvents xs s (blockSize n), ?_,
        fun g hg => ?_⟩
      · obtain ⟨m', -, hr', -⟩ := hr.mmMalloc_taken hs hn hmax hle hfind
        exact hr'.filed_placed
      · obtain ⟨m', hm, hr', hpay⟩ := hg.mmMalloc_taken hs hn hmax hle
          ((hr.findFit_congr hg _).trans hfind)
        exact ⟨_, hm, hr', hpay⟩
  | @extend xs l hnone hl =>
      have hfind : ∀ g, Rep g (xs ++ l) L → findFit g (blockSize n) = some 0 := fun g hg =>
        hg.findFit_none hnone
      rw [total_append, total_splitBlock (by omega)] at hroom
      rw [total_append] at hbrk
      have hevents : ∀ g, Rep g (xs ++ l) L →
          grownEvents g xs l (blockSize n) = grownEvents h xs l (blockSize n) := by
        intro g hg
        rw [grownEvents, grownEvents, hr.memBrk_eq hg]
      by_cases hclass : total Block.size l + blockSize n ≤ 2 ^ 24
      · refine Or.inl ⟨placedLists (coalescedLists L xs l [] (blockSize n)) xs
          (total Block.size l + blockSize n) (blockSize n), grownEvents h xs l (blockSize n) ++
            placedEvents xs (total Block.size l + blockSize n) (blockSize n), ?_, fun g hg => ?_⟩
        · obtain ⟨m', -, hr', hfiled, -⟩ := hr.mmMalloc_grown hn hmax (hfind h hr) hl (by omega)
            hclass
          exact hfiled.trans hr'.filed_placed
        · obtain ⟨m', hm, hr', -, hpay⟩ := hg.mmMalloc_grown hn hmax (hfind g hg) hl
            (by rw [hr.memBrk_eq hg]; omega) hclass
          rw [hevents g hg] at hm
          exact ⟨_, hm, hr', hpay⟩
      · refine Or.inr ⟨_, grownEvents h xs l (blockSize n), _, not_le.mp hclass, hnone, by omega,
          .append hl, List.mem_cons_of_mem _ List.mem_cons_self, fun g hg => ?_⟩
        rw [← hevents g hg]
        exact hg.mmMalloc_over hn hmax (hfind g hg) hl (by rw [hr.memBrk_eq hg]; omega)
          (not_le.mp hclass)

/-- **`mm_malloc`**: a step of the sequence that keeps every payload, or a refusal
that changes nothing, or a last block too large for its list. -/
theorem mmMalloc_spec (hr : Rep h bs L) (hs : Settled bs) {n : ℕ} (hn : 0 < n)
    (hmax : n ≤ maxRequest) :
    (∃ bs' L' q es, MallocStep n bs bs' q ∧ Found h n q ∧
      424 + total Block.size bs' ≤ MAX_HEAP ∧ Filed es L L' ∧
      ∀ g, Rep g bs L → ∃ g', Logged.mmMalloc g n = ⟨es, .ok (g', q)⟩ ∧ Rep g' bs' L' ∧
        PayloadEq bs g.mem g'.mem) ∨
    (∀ s, ⟨s, .free⟩ ∈ bs → s < blockSize n) ∧
      ((MAX_HEAP < h.memBrk + blockSize n ∧ ∀ g, Rep g bs L → Logged.mmMalloc g n =
          ⟨[.sbrk h.memBrk (toInt (blockSize n)) minusOne h.memBrk], .ok (g, 0)⟩) ∨
      (h.memBrk + blockSize n ≤ MAX_HEAP ∧ ∃ t es b, 2 ^ 24 < t ∧ Extends (blockSize n) bs t ∧
        .add b t ∈ es ∧ ∀ g, Rep g bs L → Logged.mmMalloc g n = ⟨es, .error ()⟩)) := by
  have hbrk := hr.brk
  have hsmall := hr.small
  rcases hr.findFit_spec (blockSize n) with ⟨hfind, hnone⟩ | ⟨xs, s, ys, rfl, hle, hfind⟩
  · -- no free block is large enough: the heap is asked to grow
    by_cases hfull : MAX_HEAP < h.memBrk + blockSize n
    · refine Or.inr ⟨hnone, Or.inl ⟨hfull, fun g hg => ?_⟩⟩
      rw [← hr.memBrk_eq hg] at hfull ⊢
      exact hg.mmMalloc_refused hn hmax (hg.findFit_none hnone) hfull
    · obtain ⟨us, l, rfl, hl⟩ := hs.exists_leftFree
      have hstep := MallocStep.extend hnone hl
      have hroom : 424 + total Block.size
          (us ++ splitBlock (total Block.size l + blockSize n) (blockSize n)) ≤ MAX_HEAP := by
        rw [total_append] at hbrk ⊢
        rw [total_splitBlock (by omega)]
        omega
      rcases hr.mmMalloc_of_step hs hn hmax hstep (Or.inr hfind) hroom with
        ⟨L', es, hfiled, hall⟩ | ⟨t, es, b, hbig, -, -, hext, hmem, hall⟩
      · exact Or.inl ⟨_, L', _, es, hstep, Or.inr hfind, hroom, hfiled, hall⟩
      · exact Or.inr ⟨hnone, Or.inr ⟨not_lt.mp hfull, t, es, b, hbig, hext, hmem, hall⟩⟩
  · -- a free block is large enough
    have hstep := @MallocStep.fit n xs ys s hle
    have hroom : 424 + total Block.size (xs ++ splitBlock s (blockSize n) ++ ys) ≤ MAX_HEAP := by
      simp only [total_append, total_cons, total_splitBlock hle] at hbrk ⊢
      omega
    rcases hr.mmMalloc_of_step hs hn hmax hstep (Or.inl hfind) hroom with
      ⟨L', es, hfiled, hall⟩ | ⟨t, es, b, -, hnone, -⟩
    · exact Or.inl ⟨_, L', _, es, hstep, Or.inl hfind, hroom, hfiled, hall⟩
    · exact absurd (hnone s (by simp)) (by omega)

end Rep

/-! ## `mm_free` -/

/-- The bytes inside every allocated block but the one of `p` are kept. -/
def Frame (bs : List Block) (p : ℕ) (m m' : Mem) : Prop :=
  ∀ q s, Held bs q s → q ≠ p → ∀ x, q ≤ x → x < q + (s - 8) → m' x = m x

/-- An allocated block splits the sequence. -/
theorem HeldAt.split {bs : List Block} {p s : ℕ} (h : Held bs p s) :
    ∃ xs ys, bs = xs ++ ⟨s, .alloc⟩ :: ys ∧ p = 420 + total Block.size xs + 4 := by
  obtain ⟨q, rfl, hq⟩ := h
  obtain ⟨xs, ys, rfl, rfl⟩ := exists_split_of_mem_placed hq
  exact ⟨xs, ys, rfl, rfl⟩

theorem PayloadEq.held {bs : List Block} {m m' : Mem} (h : PayloadEq bs m m') {q s : ℕ}
    (hq : Held bs q s) {x : ℕ} (hx : q ≤ x) (hx' : x < q + (s - 8)) : m' x = m x := by
  obtain ⟨a, rfl, ha⟩ := hq
  exact h a s ha x hx (by omega)

theorem PayloadEq.frame {bs : List Block} {m m' : Mem} (h : PayloadEq bs m m') (p : ℕ) :
    Frame bs p m m' := fun _ _ hq _ _ hx hx' => h.held hq hx hx'

/-- What keeps the payloads once the block of `p` is loose keeps all but that of
`p`. -/
theorem frame_of_loose {xs ys : List Block} (mid : List Block) {s t : ℕ} {m m' : Mem}
    (hmid : ∀ a q u, ¬ HeldAt a mid q u) (ht : t = s + total Block.size mid)
    (h : PayloadEq (xs ++ [⟨t, .loose⟩] ++ ys) m m') :
    Frame (xs ++ ⟨s, .alloc⟩ :: mid ++ ys) (420 + total Block.size xs + 4) m m' := by
  intro q u hq hne x hx hx'
  refine h.held ?_ hx hx'
  simp only [heldAt_append, heldAt_cons, heldAt_nil, hmid, or_false, total_append, total_cons,
    total_nil, Block.mk.injEq, reduceCtorEq, and_false, and_true] at hq ⊢
  rcases hq with (hq | ⟨rfl, -⟩) | hq
  · exact Or.inl hq
  · exact absurd rfl hne
  · right
    rw [Nat.add_zero, ht]
    exact hq

namespace Rep

variable {h : Heap} {bs : List Block} {L : ℕ → List ℕ}

/-- **`mm_free` up to `coalesce`**: the block is loose, and every other payload is kept. -/
theorem mmFree_loosen {xs l r ys : List Block} {s : ℕ}
    (hr : Rep h (xs ++ (l ++ ⟨s, .alloc⟩ :: r) ++ ys) L) {p : ℕ}
    (hp : p = 420 + total Block.size (xs ++ l) + 4) :
    ∃ m', Logged.mmFree h p = (do
        let (h, _) ← Logged.coalesce { h with mem := m' } (420 + total Block.size (xs ++ l) + 12)
        pure h) ∧
      Rep { h with mem := m' } (xs ++ (l ++ ⟨s, .loose⟩ :: r) ++ ys) L ∧
      PayloadEq (xs ++ (l ++ ⟨s, .loose⟩ :: r) ++ ys) h.mem m' := by
  have hform : ∀ b, xs ++ (l ++ b :: r) ++ ys = xs ++ l ++ [b] ++ (r ++ ys) := by simp
  rw [hform] at hr ⊢
  have hplace := mem_placed_split Block.size 420 (xs ++ l) ⟨s, .alloc⟩ (r ++ ys)
  rw [List.append_cons] at hplace
  have hb := hr.block_bounds hplace
  have hsize := hr.getSize_node hplace
  have hsmall := hr.small
  have hval := maxHeap_eq
  simp only at hb hsize
  obtain ⟨a, ha⟩ : ∃ a, a = 420 + total Block.size (xs ++ l) := ⟨_, rfl⟩
  rw [← ha] at hb hsize hp ⊢
  subst hp
  -- the two tags
  have hword : (Block.mk s .loose).word < 2 ^ 32 := by rw [word_loose]; omega
  have hsmod : s % 8 = 0 := hb.2.2.2.1
  have hsmin : 16 ≤ s := hb.2.2.1
  have hout := eqOutside_writeTags h.mem (p := a) (b := ⟨s, .loose⟩) hsmin
  have hputs := put_tags (h := h) (p := a) (b := ⟨s, .loose⟩) hsmod hword
  simp only [Tag.bit] at hputs
  refine ⟨writeTags h.mem a ⟨s, .loose⟩, ?_, ?_, ?_⟩
  · have hptr : a + 4 + DSIZE = a + 12 := rfl
    simp only [Logged.mmFree, hptr, hsize, hputs]
  · rw [ha]
    exact hr.retag_one (b := ⟨s, .loose⟩) (by simp) (by simp) (by simp) hsmin
  · exact payloadEq_of_eqOutside (by simp) (by
      rw [← ha]
      simpa using hout)

/-- **`mm_free`**: the block and its free neighbours become one free block, and
every other payload is kept. -/
theorem mmFree_join {xs l r ys : List Block} {s : ℕ}
    (hr : Rep h (xs ++ (l ++ ⟨s, .alloc⟩ :: r) ++ ys) L) (hl : LeftFree xs l)
    (hrr : RightFree r ys) {p : ℕ} (hp : p = 420 + total Block.size (xs ++ l) + 4)
    (hfit : total Block.size l + s + total Block.size r ≤ 2 ^ 24) :
    ∃ m', Logged.mmFree h p =
        ⟨[.add (420 + total Block.size xs + 12) (total Block.size l + s + total Block.size r)],
          .ok { h with mem := m' }⟩ ∧
      Rep { h with mem := m' }
        (xs ++ ⟨total Block.size l + s + total Block.size r, .free⟩ :: ys)
        (coalescedLists L xs l r s) ∧
      Frame (xs ++ (l ++ ⟨s, .alloc⟩ :: r) ++ ys) p h.mem m' := by
  obtain ⟨m₁, hm₁, hr₁, hpay₁⟩ := hr.mmFree_loosen hp
  obtain ⟨m₂, hm₂, hr₂, hpay₂⟩ := hr₁.coalesce_spec hl hrr hfit
  refine ⟨m₂, ?_, hr₂, ?_⟩
  · rw [hm₁, hm₂]
    rfl
  · have hform : xs ++ (l ++ ⟨s, .loose⟩ :: r) ++ ys = xs ++ l ++ [⟨s, .loose⟩] ++ (r ++ ys) := by
      simp
    have hpay := hpay₁.trans (fun _ _ h => h) hpay₂
    rw [hform] at hpay
    have := frame_of_loose (s := s) [] (by simp) (by simp) hpay
    rw [← hp] at this
    simpa using this

/-- **`mm_free` that joins more than `2 ^ 24` bytes** does not return. -/
theorem mmFree_over {p t : ℕ} (L : ℕ → List ℕ) (hj : Joins p bs t) (hbig : 2 ^ 24 < t) :
    ∃ es b, .add b t ∈ es ∧ ∀ g, Rep g bs L → Logged.mmFree g p = ⟨es, .error ()⟩ := by
  cases hj with
  | @join xs l r ys s hl hrr hp =>
      refine ⟨[.add (420 + total Block.size xs + 12)
        (total Block.size l + s + total Block.size r)], _, List.mem_cons_self, fun g hg => ?_⟩
      obtain ⟨m₁, hm₁, hr₁, -⟩ := hg.mmFree_loosen hp
      rw [hm₁, hr₁.coalesce_over hl hrr hbig]
      rfl

/-- **`mm_free`** of a live pointer, in every heap with these blocks and lists: a step of
the sequence, unless the free block gets too large for its list. -/
theorem mmFree_spec (hr : Rep h bs L) (hs : Settled bs) {p s : ℕ} (hheld : Held bs p s) :
    ∃ t, Joins p bs t ∧ (t ≤ 2 ^ 24 → ∃ bs' L' es, FreeStep p bs bs' ∧ Filed es L L' ∧
      ∀ g, Rep g bs L → ∃ m', Logged.mmFree g p = ⟨es, .ok { g with mem := m' }⟩ ∧
        Rep { g with mem := m' } bs' L' ∧ Frame bs p g.mem m') := by
  obtain ⟨zs, ws, rfl, hp⟩ := hheld.split
  clear hheld
  obtain ⟨hzs, hright, -⟩ := settled_append.mp hs
  obtain ⟨-, hws, -⟩ := settled_cons.mp hright
  -- the neighbours
  obtain ⟨xs, l, rfl, hl⟩ := hzs.exists_leftFree
  obtain ⟨r, ys, rfl, hrr⟩ := hws.exists_rightFree
  have hform : xs ++ l ++ ⟨s, .alloc⟩ :: (r ++ ys) = xs ++ (l ++ ⟨s, .alloc⟩ :: r) ++ ys := by
    simp
  rw [hform] at hr ⊢
  refine ⟨_, .join hl hrr hp, fun hfit => ⟨_, _, _, .join hl hrr hp, ?_, fun g hg =>
    hg.mmFree_join hl hrr hp hfit⟩⟩
  obtain ⟨m', -, hr', -⟩ := hr.mmFree_join hl hrr hp hfit
  exact hr'.filed_coalesced

end Rep

/-! ## `mm_realloc` -/

/-- The `k` bytes from `p` on are the `k` bytes from `q` on afterwards. -/
def Copied (m m' : Mem) (p q k : ℕ) : Prop := ∀ i < k, m' (q + i) = m (p + i)

theorem Frame.trans {bs : List Block} {p : ℕ} {m m' m'' : Mem} (h : Frame bs p m m')
    (h' : Frame bs p m' m'') : Frame bs p m m'' :=
  fun q s hq hne x hx hx' => (h' q s hq hne x hx hx').trans (h q s hq hne x hx hx')

theorem align_eq {d : ℕ} (hd : d + 7 < 2 ^ 32) : align d = 8 * ((d + 7) / 8) := by
  have hsum : u32 (d + (ALIGNMENT - 1)) = d + 7 := Nat.mod_eq_of_lt hd
  rw [align, hsum, mask_eq hd]
  omega

/-- Tags are stored at the two ends of a block. -/
theorem writeTags_payload (m : Mem) {p x : ℕ} {b : Block} (hx : p + 4 ≤ x)
    (hx' : x + 4 < p + b.size) : writeTags m p b x = m x := by
  rw [writeTags, write32_apply_of_disjoint _ _ (by omega),
    write32_apply_of_disjoint _ _ (by omega)]

theorem writeLast_payload (m : Mem) {p x : ℕ} {b : Block} (hx : p + 4 ≤ x)
    (hx' : x + 4 < p + b.size) : writeLast m p b x = m x := by
  rw [writeLast, write32_apply_of_disjoint _ _ (by omega), writeTags_payload m hx hx']

namespace Rep

variable {h : Heap} {bs : List Block} {L : ℕ → List ℕ}

/-- Stores into the payload of an allocated block keep the representation. -/
theorem write_payload (hr : Rep h bs L) {p s : ℕ} {m' : Mem} (hp : Held bs p s)
    (hout : EqOutside h.mem m' p (p + (s - 8))) : Rep { h with mem := m' } bs L := by
  obtain ⟨xs, ys, rfl, rfl⟩ := hp.split
  have hplace := mem_placed_split Block.size 420 xs ⟨s, .alloc⟩ ys
  have ht := hr.tagged _ _ hplace
  have hmin : 16 ≤ s := ht.min
  rw [List.append_cons] at hr ⊢
  refine hr.retag [⟨s, .alloc⟩] m' (by simp) (by simp) rfl ?_ ?_
  · intro x hx
    simp only [total_cons, total_nil] at hx
    exact hout x (by omega)
  · intro q b hq
    simp only [placed_cons, placed_nil, List.mem_singleton, Prod.mk.injEq] at hq
    obtain ⟨rfl, rfl⟩ := hq
    exact ht.congr (hout.read32_eq (by omega)) (hout.read32_eq (by simp only; omega))

/-- What `mm_realloc` reads first: the size of the block less eight, and the
header that follows. -/
theorem realloc_reads {xs ys : List Block} {s : ℕ} (hr : Rep h (xs ++ ⟨s, .alloc⟩ :: ys) L) :
    getSize h (hdrp (420 + total Block.size xs + 4 + DSIZE)) = s ∧
      nextBlkp h (420 + total Block.size xs + 4 + DSIZE) = 420 + total Block.size xs + s + 12 ∧
      getSize h (hdrp (420 + total Block.size xs + s + 12)) = (nextBlock ys).size ∧
      getAlloc h (hdrp (420 + total Block.size xs + s + 12)) = (nextBlock ys).tag.bit := by
  have hplace := mem_placed_split Block.size 420 xs ⟨s, .alloc⟩ ys
  have hr' : Rep h ((xs ++ [⟨s, .alloc⟩]) ++ ys) L := by simpa using hr
  obtain ⟨hd, hw⟩ := hr'.header_next
  have hend : hdrp (420 + total Block.size xs + s + 12) =
      420 + total Block.size (xs ++ [⟨s, .alloc⟩]) := by
    rw [hdrp_eq, total_append, total_cons, total_nil]
    simp only
    omega
  rw [hend]
  exact ⟨hr.getSize_node hplace, hr.nextBlkp_eq hplace, getSize_eq hw hd, getAlloc_eq hw hd⟩

/-- The block after a block: its size is at most that of the heap, and zero at the
end only. -/
theorem nextBlock_size {xs ys : List Block} {b : Block} (hr : Rep h (xs ++ b :: ys) L) :
    (nextBlock ys).size ≤ h.memBrk ∧ ((nextBlock ys).size = 0 ↔ ys = []) := by
  cases ys with
  | nil => exact ⟨Nat.zero_le _, iff_of_true rfl rfl⟩
  | cons c ys =>
      have hp := mem_placed_split Block.size 420 (xs ++ [b]) c ys
      rw [← List.append_cons] at hp
      have hc := hr.block_bounds hp
      rw [nextBlock_cons]
      exact ⟨by omega, iff_of_false (by omega) (List.cons_ne_nil _ _)⟩

/-- **The branches of `mm_realloc`** for a block of size `s`. -/
theorem mmRealloc_eq {xs ys : List Block} {s n : ℕ} (hr : Rep h (xs ++ ⟨s, .alloc⟩ :: ys) L)
    (hn : 0 < n) (hlt : n < 2 ^ 32) :
    Logged.mmRealloc h (420 + total Block.size xs + 4) n =
      if n + 8 ≤ s then pure (h, 420 + total Block.size xs + 4)
      else if (nextBlock ys).size = 0 then
        Logged.reallocGrow h (420 + total Block.size xs + 4) (n + 8 - s)
      else if (nextBlock ys).tag.bit = 0 ∧ n + 8 ≤ s + (nextBlock ys).size then
        require () (reallocAbsorb h (420 + total Block.size xs + 4)
          (420 + total Block.size xs + s + 12))
      else Logged.reallocMove h (420 + total Block.size xs + 4) n (s - 8) := by
  have hb := hr.block_bounds (mem_placed_split Block.size 420 xs ⟨s, .alloc⟩ ys)
  have hsmall := hr.small
  have hval := maxHeap_eq
  have hroom := hr.nextBlock_size.1
  obtain ⟨hsize, hnext, hnsize, hnalloc⟩ := hr.realloc_reads
  simp only at hb
  have hp0 : 420 + total Block.size xs + 4 ≠ 0 := by omega
  have hn0 : n ≠ 0 := by omega
  have hold : u32 (s + 2 ^ 32 - DSIZE) = s - 8 := by
    change (s + 2 ^ 32 - 8) % 2 ^ 32 = _
    omega
  simp only [Logged.mmRealloc, hp0, hn0, if_false, hsize, hold, hnext, hnsize, hnalloc]
  by_cases hkeep : n + 8 ≤ s
  · rw [if_pos (by omega), if_pos hkeep]
  · have hshort : u32 (n + 2 ^ 32 - (s - 8)) = n + 8 - s := by
      rw [u32]
      omega
    have hsum : u32 ((nextBlock ys).size + (s - 8)) = (nextBlock ys).size + (s - 8) :=
      Nat.mod_eq_of_lt (by omega)
    have hiff : (nextBlock ys).size + (s - 8) ≥ n ↔ n + 8 ≤ s + (nextBlock ys).size := by omega
    rw [if_neg (by omega), if_neg hkeep, hshort, hsum]
    simp only [hiff]

/-- `mem_sbrk` refuses the bytes that the last block is short of. -/
theorem reallocGrow_refused {p d k : ℕ} (hr : Rep h bs L) (halign : align d = k)
    (hlt : k < 2 ^ 32) (hfull : MAX_HEAP < h.memBrk + k) :
    Logged.reallocGrow h p d = ⟨[.sbrk h.memBrk (toInt k) minusOne h.memBrk], .ok (h, 0)⟩ := by
  rw [Logged.reallocGrow, halign, hr.logged_memSbrk hlt, if_neg (by omega), bind_of_ok rfl]
  dsimp only
  rw [if_pos rfl]
  rfl

/-- **The last block grows** by `k` bytes. -/
theorem reallocGrow_spec {xs : List Block} {s d k : ℕ} (hr : Rep h (xs ++ [⟨s, .alloc⟩]) L)
    (halign : align d = k) (hmod : k % 8 = 0) (hfit : h.memBrk + k ≤ MAX_HEAP) :
    ∃ h', Logged.reallocGrow h (420 + total Block.size xs + 4) d =
        ⟨[.sbrk h.memBrk (toInt k) h.memBrk (h.memBrk + k)],
          .ok (h', 420 + total Block.size xs + 4)⟩ ∧
      Rep h' (xs ++ [⟨s + k, .alloc⟩]) L ∧
      Frame (xs ++ [⟨s, .alloc⟩]) (420 + total Block.size xs + 4) h.mem h'.mem ∧
      Copied h.mem h'.mem (420 + total Block.size xs + 4) (420 + total Block.size xs + 4)
        (s - 8) := by
  have hmaxval := maxHeap_eq
  have hb := hr.block_bounds (mem_placed_split Block.size 420 xs ⟨s, .alloc⟩ [])
  have hsize := hr.realloc_reads.1
  simp only at hb
  obtain ⟨a, ha⟩ : ∃ a, a = 420 + total Block.size xs := ⟨_, rfl⟩
  rw [← ha] at hb hsize ⊢
  have hmin : 16 ≤ s := hb.2.2.1
  have hsmod : s % 8 = 0 := hb.2.2.2.1
  have hne := hr.memBrk_ne
  have hbsize : (Block.mk (s + k) .alloc).size % 8 = 0 := by
    simp only
    omega
  have hbmin : 16 ≤ (Block.mk (s + k) .alloc).size := Nat.le_add_right_of_le hmin
  have hword : (Block.mk (s + k) .alloc).word < 2 ^ 32 := Block.word_lt (by simp only; omega)
  have hout := eqOutside_writeLast h.mem (p := a) hbmin
  -- the tags of the longer block, and the epilogue behind it
  refine ⟨{ h with mem := writeLast h.mem a ⟨s + k, .alloc⟩, memBrk := h.memBrk + k },
    ?_, ?_, ?_, ?_⟩
  · have hsize' : getSize { h with memBrk := h.memBrk + k } (hdrp (a + 4 + DSIZE)) = s := hsize
    have hnew : u32 (s + k) = s + k := Nat.mod_eq_of_lt (by omega)
    have hputs := put_tags (h := { h with memBrk := h.memBrk + k }) (p := a)
      (b := ⟨s + k, .alloc⟩) hbsize hword
    have htag : Tagged (writeTags h.mem a ⟨s + k, .alloc⟩) a ⟨s + k, .alloc⟩ :=
      tagged_writeTags hbsize hbmin hword
    have hend := (htag.end_eq (h := { h with
      mem := writeTags h.mem a ⟨s + k, .alloc⟩, memBrk := h.memBrk + k })).2
    simp only [Tag.bit] at hputs
    have hptr : a + 4 + DSIZE = a + 12 := rfl
    rw [Logged.reallocGrow, halign, hr.logged_memSbrk (by omega), if_pos hfit, bind_of_ok rfl]
    dsimp only
    rw [if_neg hne]
    rw [hptr] at hsize' ⊢
    rw [hsize', hnew, hputs, hend]
    rfl
  · rw [ha]
    exact hr.regrow_one (by simp) (by simp) (by simp) hbsize hbmin hfit
  · intro q u hq hne x hx hx'
    simp only [heldAt_append, heldAt_cons, heldAt_nil, or_false] at hq
    rcases hq with hq | hq
    · have := hq.bounds
      exact hout x (by omega)
    · omega
  · intro i hi
    exact writeLast_payload h.mem (by omega) (by simp only; omega)

/-- **The block absorbs** the free block after it. -/
theorem reallocAbsorb_spec {xs ys : List Block} {s t : ℕ}
    (hr : Rep h (xs ++ ⟨s, .alloc⟩ :: ⟨t, .free⟩ :: ys) L) :
    ∃ m', reallocAbsorb h (420 + total Block.size xs + 4)
          (420 + total Block.size xs + s + 12) =
        some ({ h with mem := m' }, 420 + total Block.size xs + 4) ∧
      Rep { h with mem := m' } (xs ++ ⟨s + t, .alloc⟩ :: ys)
        (fun i => (L i).erase (420 + total Block.size xs + s + 12)) ∧
      Frame (xs ++ ⟨s, .alloc⟩ :: ⟨t, .free⟩ :: ys) (420 + total Block.size xs + 4) h.mem m' ∧
      Copied h.mem m' (420 + total Block.size xs + 4) (420 + total Block.size xs + 4) (s - 8) := by
  have hb := hr.block_bounds (mem_placed_split Block.size 420 xs ⟨s, .alloc⟩ (⟨t, .free⟩ :: ys))
  have hplace := mem_placed_split Block.size 420 (xs ++ [⟨s, .alloc⟩]) ⟨t, .free⟩ ys
  rw [← List.append_cons] at hplace
  have hb' := hr.block_bounds hplace
  have hsmall := hr.small
  have hval := maxHeap_eq
  have hheld : Held (xs ++ ⟨s, .alloc⟩ :: ⟨t, .free⟩ :: ys) (420 + total Block.size xs + 4) s := by
    simp
  simp only [total_append, total_cons, total_nil] at hb hb'
  obtain ⟨a, ha⟩ : ∃ a, a = 420 + total Block.size xs := ⟨_, rfl⟩
  rw [← ha] at hb hheld ⊢
  -- the free block leaves its list
  have hpos : a + s + 12 = 420 + total Block.size (xs ++ [⟨s, .alloc⟩]) + 12 := by
    simp only [total_append, total_cons, total_nil]
    omega
  rw [List.append_cons] at hr
  obtain ⟨m₁, hm₁, hr₁, hpay₁⟩ := hr.heapRemove_spec hpos
  rw [← List.append_cons] at hr₁ hpay₁
  obtain ⟨hsize₁, -, hnsize₁, -⟩ := hr₁.realloc_reads
  rw [← ha] at hsize₁ hnsize₁
  simp only [nextBlock_cons] at hnsize₁
  -- the two blocks become one
  have hform : xs ++ ⟨s, .alloc⟩ :: ⟨t, .loose⟩ :: ys =
      xs ++ [⟨s, .alloc⟩, ⟨t, .loose⟩] ++ ys := by simp
  have hmin : 16 ≤ (Block.mk (s + t) .alloc).size := by simp only; omega
  have hmod : (Block.mk (s + t) .alloc).size % 8 = 0 := by simp only; omega
  have hword : (Block.mk (s + t) .alloc).word < 2 ^ 32 := Block.word_lt (by simp only; omega)
  rw [hform] at hr₁
  have hr₂ := hr₁.retag_one (b := ⟨s + t, .alloc⟩) (by simp) (by simp) (by simp) hmin
  have hout₂ := eqOutside_writeTags m₁ (p := a) hmin
  rw [← ha] at hr₂
  refine ⟨writeTags m₁ a ⟨s + t, .alloc⟩, ?_, by simpa using hr₂, ?_, ?_⟩
  · have hnew : u32 (s + t) = s + t := Nat.mod_eq_of_lt (by omega)
    have hputs := put_tags (h := { h with mem := m₁ }) (p := a) (b := ⟨s + t, .alloc⟩) hmod hword
    simp only [Tag.bit] at hputs
    have hptr : a + 4 + DSIZE = a + 12 := rfl
    rw [hptr] at hsize₁
    simp only [reallocAbsorb, hm₁, Option.bind_eq_bind, Option.bind_some, hptr, hsize₁, hnsize₁,
      hnew, hputs]
  · have hloose : PayloadEq (xs ++ [⟨s + t, .loose⟩] ++ ys) m₁ (writeTags m₁ a ⟨s + t, .alloc⟩) :=
      payloadEq_of_eqOutside (by simp) (by
        rw [← ha]
        simpa using hout₂)
    have hframe := frame_of_loose (s := s) [⟨t, .free⟩] (by simp) (by simp) hloose
    rw [← ha] at hframe
    exact (hpay₁.frame (a + 4)).trans (by simpa using hframe)
  · intro i hi
    rw [writeTags_payload _ (by omega) (by simp only; omega)]
    exact hpay₁.held hheld (by omega) (by omega)

/-- **`mm_realloc` by moving, up to `mm_free`**: the new block holds the bytes of the old
one, and the other payloads are kept. -/
theorem reallocMove_copy {g g₁ : Heap} {bs₁ : List Block} {L₁ : ℕ → List ℕ} {p s n q : ℕ}
    {es : List HeapEvent} (hs : Settled bs) (hp : Held bs p s) (hn : s < n + 8)
    (hstep : MallocStep n bs bs₁ q) (hm : Logged.mmMalloc g n = ⟨es, .ok (g₁, q)⟩)
    (hr : Rep g₁ bs₁ L₁) (hpay : PayloadEq bs g.mem g₁.mem) :
    ∃ g₂, Logged.reallocMove g p n (s - 8) = (do
        record es
        let h ← Logged.mmFree g₂ p
        pure (h, q)) ∧
      Rep g₂ bs₁ L₁ ∧ Frame bs p g.mem g₂.mem ∧ Copied g.mem g₂.mem p q (s - 8) := by
  have hmin := (hp.size hs.sizes).2
  have hblock := (le_blockSize n).1
  have hs₁ := hstep.settled hs
  obtain ⟨t, ht, hq0, hnew, hheld⟩ := hstep.held hs
  have hq₁ : Held bs₁ q t := (hheld q t).mpr (Or.inr ⟨rfl, rfl⟩)
  have hout : EqOutside g₁.mem (copyBytes g₁.mem q p (s - 8)) q (q + (t - 8)) := by
    intro x hx
    exact eqOutside_copyBytes g₁.mem q p (s - 8) x (by omega)
  refine ⟨memcpy g₁ q p (s - 8), ?_, hr.write_payload hq₁ hout, ?_, ?_⟩
  · rw [Logged.reallocMove, hm, bind_of_ok rfl]
    dsimp only
    rw [if_neg hq0]
    rfl
  · -- another payload is disjoint from the one that is copied to
    intro a u ha hap x hx hx'
    have haq : a ≠ q := by
      rintro rfl
      exact hnew u ha
    have hsz := (ha.size hs.sizes).2
    have htz := (hq₁.size hs₁.sizes).2
    have hcopy : copyBytes g₁.mem q p (s - 8) x = g₁.mem x := by
      refine hout x ?_
      rcases ((hheld a u).mpr (Or.inl ha)).disjoint hq₁ with ⟨h, -⟩ | h | h
      · exact absurd h haq
      · omega
      · omega
    exact hcopy.trans (hpay.held ha hx hx')
  · intro i hi
    have hcopy : copyBytes g₁.mem q p (s - 8) (q + i) = g₁.mem (p + i) := by
      unfold copyBytes
      rw [if_pos (by omega)]
      congr 1
      omega
    exact hcopy.trans (hpay.held hp (by omega) (by omega))

section Move

variable {bs₁ : List Block} {L₁ : ℕ → List ℕ} {p s n q : ℕ} {es₁ : List HeapEvent}
  (hr : Rep h bs L) (hs : Settled bs) (hp : Held bs p s) (hn : s < n + 8)
  (hstep : MallocStep n bs bs₁ q)
  (hall : ∀ g, Rep g bs L → ∃ g', Logged.mmMalloc g n = ⟨es₁, .ok (g', q)⟩ ∧ Rep g' bs₁ L₁ ∧
    PayloadEq bs g.mem g'.mem)
include hs hp hn hstep hall

/-- **`mm_realloc` by moving** does not return when freeing the old block would join more
than `2 ^ 24` bytes. -/
theorem reallocMove_over {t : ℕ} (hj : Joins p bs₁ t) (hbig : 2 ^ 24 < t) :
    ∃ es b, .add b t ∈ es ∧
      ∀ g, Rep g bs L → Logged.reallocMove g p n (s - 8) = ⟨es, .error ()⟩ := by
  obtain ⟨es, b, hmem, hfree⟩ := mmFree_over L₁ hj hbig
  refine ⟨es₁ ++ es, b, List.mem_append_right _ hmem, fun g hg => ?_⟩
  obtain ⟨g₁, hm, hr₁, hpay⟩ := hall g hg
  obtain ⟨g₂, hmove, hr₂, -⟩ := reallocMove_copy hs hp hn hstep hm hr₁ hpay
  rw [hmove, hfree g₂ hr₂]
  rfl

include hr in
/-- **`mm_realloc` by moving**: allocating, copying and freeing. -/
theorem reallocMove_spec (hfiled : Filed es₁ L L₁) :
    ∃ t, Joins p bs₁ t ∧ (t ≤ 2 ^ 24 → ∃ bs' L' es, FreeStep p bs₁ bs' ∧ Filed es L L' ∧
      ∀ g, Rep g bs L → ∃ g', Logged.reallocMove g p n (s - 8) = ⟨es, .ok (g', q)⟩ ∧
        Rep g' bs' L' ∧ Frame bs p g.mem g'.mem ∧ Copied g.mem g'.mem p q (s - 8)) := by
  obtain ⟨t, ht, hq0, hnew, hheld⟩ := hstep.held hs
  have hs₁ := hstep.settled hs
  have hq₁ : Held bs₁ q t := (hheld q t).mpr (Or.inr ⟨rfl, rfl⟩)
  have hne : q ≠ p := by
    rintro rfl
    exact hnew s hp
  have hblock := (le_blockSize n).1
  have hmin := (hp.size hs.sizes).2
  obtain ⟨h₁, -, hr₁, -⟩ := hall h hr
  -- the old block is still there after `mm_malloc`, so it can be freed
  obtain ⟨u, hj, hfits⟩ := hr₁.mmFree_spec hs₁ ((hheld p s).mpr (Or.inl hp))
  refine ⟨u, hj, fun hfit => ?_⟩
  obtain ⟨bs', L', es, hfstep, hfiled', hfrees⟩ := hfits hfit
  refine ⟨bs', L', es₁ ++ es, hfstep, hfiled.trans hfiled', fun g hg => ?_⟩
  obtain ⟨g₁, hm, hr₁, hpay⟩ := hall g hg
  obtain ⟨g₂, hmove, hr₂, hframe₂, hcopy₂⟩ := reallocMove_copy hs hp hn hstep hm hr₁ hpay
  obtain ⟨m₃, hfree, hr₃, hframe⟩ := hfrees g₂ hr₂
  refine ⟨_, ?_, hr₃, ?_, ?_⟩
  · rw [hmove, hfree, record_bind, bind_of_ok rfl, events_pure, List.append_nil]
    rfl
  · intro a v ha hap x hx hx'
    exact (hframe a v ((hheld a v).mpr (Or.inl ha)) hap x hx hx').trans
      (hframe₂ a v ha hap x hx hx')
  · intro i hi
    exact (hframe q t hq₁ hne _ (by omega) (by omega)).trans (hcopy₂ i hi)

end Move

end Rep

/-! ## `mm_realloc` of a live pointer -/

namespace Rep

variable {h : Heap} {bs : List Block} {L : ℕ → List ℕ} {p s n : ℕ}

/-- **`mm_realloc` in place**: the block is kept, grows, or absorbs the next one, unless
`mem_sbrk` refuses the bytes that the last block is short of. -/
theorem realloc_stays (hr : Rep h bs L) (hs : Settled bs) (hheld : Held bs p s) (hn : 0 < n)
    (hlt : n < 2 ^ 32) (hstay : ¬ Moves p n bs) :
    (∃ bs' L' es, SeqStep (.realloc p n) bs bs' p ∧ Filed es L L' ∧ ∀ g, Rep g bs L →
      ∃ g', Logged.mmRealloc g p n = ⟨es, .ok (g', p)⟩ ∧ Rep g' bs' L' ∧ Frame bs p g.mem g'.mem ∧
        Copied g.mem g'.mem p p (s - 8)) ∨
    ∃ k < 2 ^ 32, Grows p n bs k ∧ MAX_HEAP < h.memBrk + k ∧ ∀ g, Rep g bs L →
      Logged.mmRealloc g p n =
        ⟨[.sbrk h.memBrk (toInt k) minusOne h.memBrk], .ok (g, 0)⟩ := by
  have hp := hheld
  have hsmin := (hheld.size hs.sizes).2
  obtain ⟨xs, ys, rfl, rfl⟩ := hp.split
  have hzero := hr.nextBlock_size.2
  have heq : ∀ g, Rep g (xs ++ ⟨s, .alloc⟩ :: ys) L → _ := fun g hg => hg.mmRealloc_eq hn hlt
  by_cases hkeep : n + 8 ≤ s
  · -- the block is large enough
    refine Or.inl ⟨_, L, [], SeqStep.keep hheld hn hkeep, Filed.refl L, fun g hg => ⟨g, ?_, hg,
      (PayloadEq.refl _ g.mem).frame _, fun i hi => rfl⟩⟩
    rw [heq g hg, if_pos hkeep]
    rfl
  by_cases hlast : ys = []
  · -- it is the last one
    subst hlast
    have hmaxval := maxHeap_eq
    have hgrow : Grows (420 + total Block.size xs + 4) n (xs ++ [⟨s, .alloc⟩]) _ :=
      .grow (not_le.mp hkeep) rfl
    have hrun : ∀ g, Rep g (xs ++ [⟨s, .alloc⟩]) L →
        Logged.mmRealloc g (420 + total Block.size xs + 4) n =
          Logged.reallocGrow g (420 + total Block.size xs + 4) (n + 8 - s) := by
      intro g hg
      rw [heq g hg, if_neg hkeep, if_pos (hzero.mpr rfl)]
    have halign : align (n + 8 - s) = 8 * ((n + 8 - s + 7) / 8) := align_eq (by omega)
    obtain ⟨k, hk⟩ : ∃ k, k = 8 * ((n + 8 - s + 7) / 8) := ⟨_, rfl⟩
    rw [← hk] at hgrow halign
    by_cases hfull : MAX_HEAP < h.memBrk + k
    · refine Or.inr ⟨k, by omega, hgrow, hfull, fun g hg => ?_⟩
      rw [hrun g hg, hg.reallocGrow_refused halign (by omega) (hr.memBrk_eq hg ▸ hfull),
        hr.memBrk_eq hg]
    · refine Or.inl ⟨_, L, [.sbrk h.memBrk (toInt k) h.memBrk (h.memBrk + k)],
        SeqStep.grow (not_le.mp hkeep), (Filed.refl L).sbrk _ _ _ _, fun g hg => ?_⟩
      obtain ⟨g', hm, hr', hframe, hcopy⟩ := hg.reallocGrow_spec halign (by omega)
        (hr.memBrk_eq hg ▸ not_lt.mp hfull)
      rw [hr.memBrk_eq hg] at hm
      rw [hrun g hg, ← hk]
      exact ⟨g', hm, hr', hframe, hcopy⟩
  have hnz : ¬(nextBlock ys).size = 0 := mt hzero.mp hlast
  by_cases habsorb : (nextBlock ys).tag.bit = 0 ∧ n + 8 ≤ s + (nextBlock ys).size
  · -- the next block is free and large enough
    have hrun : ∀ g, Rep g (xs ++ ⟨s, .alloc⟩ :: ys) L → _ := fun g hg => by
      have := heq g hg
      rw [if_neg hkeep, if_neg hnz, if_pos habsorb] at this
      exact this
    have hfree := hs.next_free habsorb.1
    cases ys with
    | nil => exact absurd rfl hlast
    | cons b ys =>
        obtain ⟨t, tag⟩ := b
        simp only [nextBlock_cons] at habsorb hfree
        subst hfree
        refine Or.inl ⟨_, fun i => (L i).erase (420 + total Block.size xs + s + 12), [],
          SeqStep.absorb (not_le.mp hkeep) habsorb.2, Filed.sublist fun i => List.erase_sublist,
          fun g hg => ?_⟩
        obtain ⟨m', hm, hr', hframe, hcopy⟩ := hg.reallocAbsorb_spec
        refine ⟨_, ?_, hr', hframe, hcopy⟩
        rw [hrun g hg, hm]
        rfl
  · -- otherwise the block has to move
    refine absurd (.move (not_le.mp hkeep) hlast (fun t ht => ?_) rfl) hstay
    by_contra hc
    rw [ht] at habsorb
    exact habsorb ⟨rfl, not_lt.mp hc⟩

/-- **`mm_realloc` that has to move** allocates, copies and frees. -/
theorem realloc_moves (hs : Settled bs) (hn : 0 < n) (hlt : n < 2 ^ 32) (hmove : Moves p n bs) :
    ∃ s, Held bs p s ∧ s < n + 8 ∧ ∀ g, Rep g bs L →
      Logged.mmRealloc g p n = Logged.reallocMove g p n (s - 8) := by
  cases hmove with
  | @move xs ys s hshort hne hnext hp =>
      subst hp
      refine ⟨s, by simp, hshort, fun g hg => ?_⟩
      have hnz : ¬(nextBlock ys).size = 0 := mt hg.nextBlock_size.2.mp hne
      have hno : ¬((nextBlock ys).tag.bit = 0 ∧ n + 8 ≤ s + (nextBlock ys).size) := by
        rintro ⟨hbit, hle⟩
        have := hnext (nextBlock ys).size (by rw [← hs.next_free hbit])
        omega
      rw [hg.mmRealloc_eq hn hlt, if_neg (not_le.mpr hshort), if_neg hnz, if_neg hno]

end Rep

/-! ## All calls -/

/-- A call of the client, and what it returns (null for `mm_free`). -/
def Call.run (h : Heap) : Call → Option (Heap × ℕ)
  | .malloc n => mmMalloc h n
  | .free p => (mmFree h p).map fun h => (h, 0)
  | .realloc p n => mmRealloc h p n

/-- The pointer a call is about. -/
def Call.ptr : Call → ℕ
  | .malloc _ => 0
  | .free p => p
  | .realloc p _ => p

/-- The bytes a call asks for. -/
def Call.request : Call → ℕ
  | .malloc n => n
  | .free _ => 0
  | .realloc _ n => n

/-- What a call asks `mem_sbrk` for. -/
theorem Asks.le {c : Call} {bs : List Block} {k : ℕ} (h : Asks c bs k) : k ≤ c.request + 16 := by
  cases h <;> simp only [Call.request, blockSize] <;> omega

theorem Legal.request_le {live : List (ℕ × ℕ)} {c : Call} (hc : Legal live c) :
    c.request ≤ maxRequest := by
  cases c with
  | malloc n => exact hc
  | free p => exact Nat.zero_le _
  | realloc p n => exact hc.2

/-- A call with its record of events. -/
def Call.logged (h : Heap) : Call → Logged (Heap × ℕ)
  | .malloc n => Logged.mmMalloc h n
  | .free p => do
      let h ← Logged.mmFree h p
      pure (h, 0)
  | .realloc p n => Logged.mmRealloc h p n

/-- Without its events it is the call. -/
theorem Call.erases (h : Heap) (c : Call) : Erases (c.logged h) (c.run h) := by
  cases c with
  | malloc n => exact Logged.erases_mmMalloc h n
  | free p =>
      show Erases _ ((mmFree h p).map _)
      rw [Option.map_eq_bind]
      exact (Logged.erases_mmFree h p).bind fun _ => Erases.pure _
  | realloc p n => exact Logged.erases_mmRealloc h p n

theorem Call.run_of_logged {h : Heap} {c : Call} {es : List HeapEvent} {r : Heap × ℕ}
    (hl : c.logged h = ⟨es, .ok r⟩) : c.run h = some r :=
  ((c.erases h).ok_iff r).mp (by rw [hl])

theorem Call.run_of_error {h : Heap} {c : Call} {es : List HeapEvent}
    (hl : c.logged h = ⟨es, .error ()⟩) : c.run h = none := by
  have := c.erases h
  rw [Erases, hl] at this
  exact this.symm

/-- The free blocks that a call has `coalesce` form, with their sizes; a rest that `place`
splits off is part of one of them or of a free block that was there before. -/
inductive Forms (h : Heap) (bs : List Block) : Call → ℕ → Prop where
  | malloc {n t : ℕ} : 0 < n → (∀ s, ⟨s, .free⟩ ∈ bs → s < blockSize n) →
      h.memBrk + blockSize n ≤ MAX_HEAP → Extends (blockSize n) bs t → Forms h bs (.malloc n) t
  | free {p t : ℕ} : Joins p bs t → Forms h bs (.free p) t
  | reallocNull {n t : ℕ} : Forms h bs (.malloc n) t → Forms h bs (.realloc 0 n) t
  | reallocZero {p t : ℕ} : Joins p bs t → Forms h bs (.realloc p 0) t
  | moveExtend {p n t : ℕ} : Moves p n bs → Forms h bs (.malloc n) t →
      Forms h bs (.realloc p n) t
  | moveFree {p n q t : ℕ} {bs' : List Block} : Moves p n bs → MallocStep n bs bs' q →
      Found h n q → 424 + total Block.size bs' ≤ MAX_HEAP → Joins p bs' t →
      Forms h bs (.realloc p n) t

/-- A free block that is formed fits in the heap, with the bytes the call asks for. -/
theorem Forms.room {h : Heap} {bs : List Block} {c : Call} {t : ℕ} (hf : Forms h bs c t)
    (hbrk : h.memBrk = 424 + total Block.size bs) (hsmall : h.memBrk ≤ MAX_HEAP) :
    ∃ k, (k = 0 ∨ Asks c bs k) ∧ t ≤ total Block.size bs + k ∧ h.memBrk + k ≤ MAX_HEAP := by
  cases hf with
  | malloc hn hnone hroom hext =>
      exact ⟨_, Or.inr (.malloc hn hnone), hext.le_total, hroom⟩
  | free hj => exact ⟨0, Or.inl rfl, hj.le_total, hsmall⟩
  | reallocNull hf =>
      cases hf with
      | malloc hn hnone hroom hext =>
          exact ⟨_, Or.inr (.reallocNull hn hnone), hext.le_total, hroom⟩
  | reallocZero hj => exact ⟨0, Or.inl rfl, hj.le_total, hsmall⟩
  | moveExtend hmove hf =>
      cases hf with
      | malloc hn hnone hroom hext =>
          exact ⟨_, Or.inr (hmove.asks hnone), hext.le_total, hroom⟩
  | moveFree hmove hstep hfound hroom hj =>
      have hle := hj.le_total
      rcases hstep.total_eq with htotal | ⟨hnone, htotal⟩
      · exact ⟨0, Or.inl rfl, by omega, hsmall⟩
      · exact ⟨_, Or.inr (hmove.asks hnone), by omega, by omega⟩

/-- What a call does to every heap with the same blocks and lists: the same step and the
same events, a refusal that changes nothing, or a free block over `2 ^ 24` bytes, for
which the call does not return. -/
inductive Outcomes (h : Heap) (bs : List Block) (L : ℕ → List ℕ) (c : Call) : Prop where
  | done {bs' : List Block} {L' : ℕ → List ℕ} {q : ℕ} {es : List HeapEvent} :
      SeqStep c bs bs' q → Filed es L L' →
      (∀ g, Rep g bs L → ∃ g', c.logged g = ⟨es, .ok (g', q)⟩ ∧ Rep g' bs' L' ∧
        Frame bs c.ptr g.mem g'.mem) → Outcomes h bs L c
  | refused {k : ℕ} : Asks c bs k → k < 2 ^ 32 → MAX_HEAP < h.memBrk + k →
      (∀ g, Rep g bs L → c.logged g =
        ⟨[.sbrk h.memBrk (toInt k) minusOne h.memBrk], .ok (g, 0)⟩) → Outcomes h bs L c
  | overflow {t b : ℕ} {es : List HeapEvent} : Forms h bs c t → 2 ^ 24 < t → .add b t ∈ es →
      (∀ g, Rep g bs L → c.logged g = ⟨es, .error ()⟩) → Outcomes h bs L c

namespace Rep

variable {h : Heap} {bs : List Block} {L : ℕ → List ℕ}

/-- `mm_malloc`, in the terms of `Outcomes`. -/
theorem malloc_outcomes (hr : Rep h bs L) (hs : Settled bs) {n : ℕ} (hmax : n ≤ maxRequest) :
    Outcomes h bs L (.malloc n) := by
  rcases Nat.eq_zero_or_pos n with rfl | hn
  · exact .done SeqStep.mallocZero (Filed.refl L) fun g hg =>
      ⟨g, rfl, hg, (PayloadEq.refl bs g.mem).frame _⟩
  · rcases hr.mmMalloc_spec hs hn hmax with ⟨bs', L', q, es, hstep, -, -, hfiled, hall⟩ |
      ⟨hnone, ⟨hfull, hall⟩ | ⟨hroom, t, es, b, hbig, hext, hmem, hall⟩⟩
    · refine @Outcomes.done _ _ _ _ bs' L' q es (.malloc hn hstep) hfiled fun g hg => ?_
      obtain ⟨g', hm, hr', hpay⟩ := hall g hg
      exact ⟨g', hm, hr', hpay.frame _⟩
    · exact .refused (.malloc hn hnone) (blockSize_lt hmax) hfull hall
    · exact .overflow (.malloc hn hnone hroom hext) hbig hmem hall

/-- `mm_free`, in the terms of `Outcomes`. -/
theorem free_outcomes (hr : Rep h bs L) (hs : Settled bs) {p s : ℕ} (hp : Held bs p s) :
    Outcomes h bs L (.free p) := by
  obtain ⟨t, hj, hfits⟩ := hr.mmFree_spec hs hp
  by_cases hfit : t ≤ 2 ^ 24
  · obtain ⟨bs', L', es, hstep, hfiled, hall⟩ := hfits hfit
    refine @Outcomes.done _ _ _ _ bs' L' 0 es (.free hstep) hfiled fun g hg => ?_
    obtain ⟨m', hm, hr', hframe⟩ := hall g hg
    refine ⟨_, ?_, hr', hframe⟩
    rw [Call.logged, hm, bind_of_ok rfl, events_pure, List.append_nil]
    rfl
  · obtain ⟨es, b, hmem, hall⟩ := mmFree_over L hj (not_le.mp hfit)
    refine .overflow (.free hj) (not_le.mp hfit) hmem fun g hg => ?_
    rw [Call.logged, hall g hg]
    rfl

/-- What `mm_realloc` of a live pointer does, and that it keeps the bytes of the block. -/
theorem realloc_outcomes (hr : Rep h bs L) (hs : Settled bs) {p s n : ℕ} (hp : Held bs p s)
    (hn : 0 < n) (hmax : n ≤ maxRequest) :
    (∃ bs' L' q es, SeqStep (.realloc p n) bs bs' q ∧ Filed es L L' ∧ ∀ g, Rep g bs L →
      ∃ g', Logged.mmRealloc g p n = ⟨es, .ok (g', q)⟩ ∧ Rep g' bs' L' ∧ Frame bs p g.mem g'.mem ∧
        Copied g.mem g'.mem p q (s - 8)) ∨
    (∃ k < 2 ^ 32, Asks (.realloc p n) bs k ∧ MAX_HEAP < h.memBrk + k ∧ ∀ g, Rep g bs L →
      Logged.mmRealloc g p n = ⟨[.sbrk h.memBrk (toInt k) minusOne h.memBrk], .ok (g, 0)⟩) ∨
    ∃ t es b, Forms h bs (.realloc p n) t ∧ 2 ^ 24 < t ∧ .add b t ∈ es ∧
      ∀ g, Rep g bs L → Logged.mmRealloc g p n = ⟨es, .error ()⟩ := by
  have hlt : n < 2 ^ 32 := by
    have := maxRequest_eq
    omega
  by_cases hmove : Moves p n bs
  · obtain ⟨u, hu, hshort, hrun⟩ := realloc_moves (L := L) hs hn hlt hmove
    obtain rfl : s = u := by
      have h1 := (hp.size hs.sizes).2
      have h2 := (hu.size hs.sizes).2
      rcases hp.disjoint hu with ⟨-, h⟩ | h | h <;> omega
    rcases hr.mmMalloc_spec hs hn hmax with ⟨bs₁, L₁, q, es₁, hstep, hfound, hroom, hfiled, hall⟩ |
      ⟨hnone, ⟨hfull, hall⟩ | ⟨hroom, t, es, b, hbig, hext, hmem, hall⟩⟩
    · obtain ⟨t, hj, hfits⟩ := hr.reallocMove_spec hs hp hshort hstep hall hfiled
      by_cases hfit : t ≤ 2 ^ 24
      · obtain ⟨bs', L', es, hfree, hfiled', hall'⟩ := hfits hfit
        refine Or.inl ⟨bs', L', q, es, ?_, hfiled', fun g hg => hrun g hg ▸ hall' g hg⟩
        cases hmove with
        | move hlt' hne hnext hp' =>
            subst hp'
            exact SeqStep.move hlt' hne hnext hstep hfree
      · obtain ⟨es, b, hmem, hover⟩ := reallocMove_over hs hp hshort hstep hall hj (not_le.mp hfit)
        exact Or.inr (Or.inr ⟨t, es, b, .moveFree hmove hstep hfound hroom hj, not_le.mp hfit, hmem,
          fun g hg => (hrun g hg).trans (hover g hg)⟩)
    · refine Or.inr (Or.inl ⟨_, blockSize_lt hmax, hmove.asks hnone, hfull, fun g hg => ?_⟩)
      rw [hrun g hg, Logged.reallocMove, hall g hg]
      rfl
    · refine Or.inr (Or.inr ⟨t, es, b, .moveExtend hmove (.malloc hn hnone hroom hext), hbig, hmem,
        fun g hg => ?_⟩)
      rw [hrun g hg, Logged.reallocMove, hall g hg]
      rfl
  · rcases hr.realloc_stays hs hp hn hlt hmove with ⟨bs', L', es, h⟩ | ⟨k, hk, hgrow, hfull, hall⟩
    · exact Or.inl ⟨bs', L', p, es, h⟩
    · exact Or.inr (Or.inl ⟨k, hk, hgrow.asks, hfull, hall⟩)

/-- `mm_realloc(NULL, n)` is `mm_malloc(n)`. -/
theorem logged_reallocNull (g : Heap) (n : ℕ) :
    Call.logged g (.realloc 0 n) = Call.logged g (.malloc n) := by
  show Logged.mmRealloc g 0 n = Logged.mmMalloc g n
  rw [Logged.mmRealloc, if_pos rfl]

/-- `mm_realloc(p, 0)` is `mm_free(p)`. -/
theorem logged_reallocZero (g : Heap) {p : ℕ} (hp : p ≠ 0) :
    Call.logged g (.realloc p 0) = Call.logged g (.free p) := by
  show Logged.mmRealloc g p 0 = _
  rw [Logged.mmRealloc, if_neg hp, if_pos rfl, Call.logged]

/-- **Every legal call** does a step of the sequence, is refused, or forms a free block
that is too large: the same in every heap with the same blocks and lists. -/
theorem outcomes (hr : Rep h bs L) (hs : Settled bs) {live : List (ℕ × ℕ)}
    (hl : LiveRep (Held bs) live) {c : Call} (hc : Legal live c) : Outcomes h bs L c := by
  have hheld : ∀ p, p ∈ live.map Prod.fst → ∃ s, Held bs p s := by
    intro p hp
    obtain ⟨⟨q, n⟩, hq, rfl⟩ := List.mem_map.mp hp
    obtain ⟨-, s, -, hs⟩ := hl.held q n hq
    exact ⟨s, hs⟩
  cases c with
  | malloc n => exact hr.malloc_outcomes hs hc
  | free p =>
      obtain ⟨s, hp⟩ := hheld p hc
      exact hr.free_outcomes hs hp
  | realloc p n =>
      obtain ⟨hp, hmax⟩ := hc
      by_cases hp0 : p = 0
      · subst hp0
        cases hr.malloc_outcomes hs hmax with
        | @done bs' L' q es hstep hfiled hall =>
            have hstep' : SeqStep (.realloc 0 n) bs bs' q := by
              cases hstep with
              | mallocZero => exact .reallocNullZero
              | malloc hn hstep => exact .reallocNull hn hstep
            exact .done hstep' hfiled fun g hg => logged_reallocNull g n ▸ hall g hg
        | refused hask hlt hfull hall =>
            cases hask with
            | malloc hn hnone =>
                exact .refused (.reallocNull hn hnone) hlt hfull fun g hg =>
                  (logged_reallocNull g n).trans (hall g hg)
        | overflow hforms hbig hmem hall =>
            exact .overflow (.reallocNull hforms) hbig hmem fun g hg =>
              (logged_reallocNull g n).trans (hall g hg)
      · obtain ⟨s, hp⟩ := hheld p (hp.resolve_left hp0)
        rcases Nat.eq_zero_or_pos n with rfl | hn
        · cases hr.free_outcomes hs hp with
          | done hstep hfiled hall =>
              cases hstep with
              | free hstep =>
                  exact .done (.reallocZero hstep) hfiled fun g hg =>
                    logged_reallocZero g hp0 ▸ hall g hg
          | refused hask => cases hask
          | overflow hforms hbig hmem hall =>
              cases hforms with
              | free hj =>
                  exact .overflow (.reallocZero hj) hbig hmem fun g hg =>
                    (logged_reallocZero g hp0).trans (hall g hg)
        · rcases hr.realloc_outcomes hs hp hn hmax with ⟨bs', L', q, es, hstep, hfiled, hall⟩ |
            ⟨k, hlt, hask, hfull, hall⟩ | ⟨t, es, b, hforms, hbig, hmem, hall⟩
          · refine @Outcomes.done _ _ _ _ bs' L' q es hstep hfiled fun g hg => ?_
            obtain ⟨g', hm, hr', hframe, -⟩ := hall g hg
            exact ⟨g', hm, hr', hframe⟩
          · exact .refused hask hlt hfull hall
          · exact .overflow hforms hbig hmem hall

/-- **A call that forms a free block over `2 ^ 24` bytes does not return**: `heap_add` is
called for such a block. -/
theorem over_of_forms (hr : Rep h bs L) (hs : Settled bs) {c : Call} {t : ℕ}
    (hf : Forms h bs c t) (hmax : c.request ≤ maxRequest) (hbig : 2 ^ 24 < t) :
    ∃ es b u, Forms h bs c u ∧ 2 ^ 24 < u ∧ .add b u ∈ es ∧ c.logged h = ⟨es, .error ()⟩ := by
  have hmalloc : ∀ {n t}, 2 ^ 24 < t → n ≤ maxRequest → Forms h bs (.malloc n) t →
      ∃ es b, .add b t ∈ es ∧ Logged.mmMalloc h n = ⟨es, .error ()⟩ := by
    intro n t hbig hmax hf
    cases hf with
    | malloc hn hnone hroom hext =>
        cases hext with
        | append hl =>
            exact ⟨_, _, List.mem_cons_of_mem _ List.mem_cons_self,
              hr.mmMalloc_over hn hmax (hr.findFit_none hnone) hl hroom hbig⟩
  have hlt : ∀ {n}, n ≤ maxRequest → n < 2 ^ 32 := by
    intro n hn
    have := maxRequest_eq
    omega
  have hpos : ∀ {p n}, Moves p n bs → 0 < n := by
    intro p n hm
    cases hm with
    | @move xs ys s hshort _ _ _ =>
        have := (hs.sizes ⟨s, .alloc⟩ (by simp)).2
        simp only at this
        omega
  cases hf with
  | malloc hn hnone hroom hext =>
      obtain ⟨es, b, hmem, hm⟩ := hmalloc hbig hmax (.malloc hn hnone hroom hext)
      exact ⟨es, b, t, .malloc hn hnone hroom hext, hbig, hmem, hm⟩
  | free hj =>
      obtain ⟨es, b, hmem, hall⟩ := mmFree_over L hj hbig
      refine ⟨es, b, t, .free hj, hbig, hmem, ?_⟩
      rw [Call.logged, hall h hr]
      rfl
  | reallocNull hf =>
      obtain ⟨es, b, hmem, hm⟩ := hmalloc hbig hmax hf
      exact ⟨es, b, t, .reallocNull hf, hbig, hmem, (logged_reallocNull h _).trans hm⟩
  | @reallocZero p t hj =>
      obtain ⟨es, b, hmem, hall⟩ := mmFree_over L hj hbig
      have hp0 : p ≠ 0 := by
        cases hj with
        | join _ _ hp => omega
      refine ⟨es, b, t, .reallocZero hj, hbig, hmem, ?_⟩
      rw [logged_reallocZero h hp0, Call.logged, hall h hr]
      rfl
  | @moveExtend p n t hmove hf =>
      change n ≤ maxRequest at hmax
      obtain ⟨es, b, hmem, hm⟩ := hmalloc hbig hmax hf
      obtain ⟨s, -, -, hrun⟩ := realloc_moves (L := L) hs (hpos hmove) (hlt hmax) hmove
      refine ⟨es, b, t, .moveExtend hmove hf, hbig, hmem, ?_⟩
      rw [Call.logged, hrun h hr, Logged.reallocMove, hm]
      rfl
  | @moveFree p n q t bs' hmove hstep hfound hroom hj =>
      change n ≤ maxRequest at hmax
      obtain ⟨s, hp, hshort, hrun⟩ := realloc_moves (L := L) hs (hpos hmove) (hlt hmax) hmove
      rcases hr.mmMalloc_of_step hs (hpos hmove) hmax hstep hfound hroom with
        ⟨L₁, es₁, -, hall⟩ | ⟨u, es, b, hu, hnone, hfit, hext, hmem, hall⟩
      · obtain ⟨es, b, hmem, hover⟩ := reallocMove_over hs hp hshort hstep hall hj hbig
        exact ⟨es, b, t, .moveFree hmove hstep hfound hroom hj, hbig, hmem,
          (hrun h hr).trans (hover h hr)⟩
      · refine ⟨es, b, u, .moveExtend hmove (.malloc (hpos hmove) hnone hfit hext), hu, hmem, ?_⟩
        rw [Call.logged, hrun h hr, Logged.reallocMove, hall h hr]
        rfl

/-- A call that returns forms no block over `2 ^ 24` bytes. -/
theorem forms_le (hr : Rep h bs L) (hs : Settled bs) {c : Call} {t : ℕ} {r : Heap × ℕ}
    (hmax : c.request ≤ maxRequest) (hrun : c.run h = some r) (hf : Forms h bs c t) :
    t ≤ 2 ^ 24 := by
  by_contra hbig
  obtain ⟨es, b, u, -, -, -, hlog⟩ := hr.over_of_forms hs hf hmax (not_le.mp hbig)
  rw [Call.run_of_error hlog] at hrun
  cases hrun

end Rep

end Malloc
