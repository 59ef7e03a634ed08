/-
# Growing the heap and handing out a block: `extend_heap`, `place`

`extend_heap` appends a block at the break and coalesces it with a free last
block; it returns null and changes nothing when `mem_sbrk` refuses.  `place`
allocates a free block, and files what is left of it as a new free block when
that is at least 16 bytes.
-/
import CsappLabs.Coalesce

open WordMemory LinkedChain Layout Effects Prog

namespace Malloc

/-- The blocks `place` makes of a free block of size `s`. -/
def splitBlock (s asize : ℕ) : List Block :=
  if 16 ≤ s - asize then [⟨asize, .alloc⟩, ⟨s - asize, .free⟩] else [⟨s, .alloc⟩]

theorem total_splitBlock {s asize : ℕ} (h : asize ≤ s) :
    total Block.size (splitBlock s asize) = s := by
  unfold splitBlock
  split_ifs
  · simp only [total_cons, total_nil]
    omega
  · simp

theorem word_alloc (s : ℕ) : (Block.mk s .alloc).word = s + 1 := rfl

theorem word_loose (s : ℕ) : (Block.mk s .loose).word = s := rfl

/-! ## `mem_sbrk` -/

theorem minusOne_eq : minusOne = 4294967295 := by norm_num [minusOne]

/-- The break is not the address -1. -/
theorem Rep.memBrk_ne {h : Heap} {bs : List Block} {L : ℕ → List ℕ} (hr : Rep h bs L) :
    h.memBrk ≠ minusOne := by
  have hsmall := hr.small
  have hval := maxHeap_eq
  have hminus := minusOne_eq
  omega

/-- A small increment is itself as an `int`. -/
theorem toInt_of_lt {n : ℕ} (hn : n < 2 ^ 31) : toInt n = (n : ℤ) := if_pos hn

/-- A large increment is negative as an `int`. -/
theorem toInt_neg {n : ℕ} (hn : 2 ^ 31 ≤ n) (hlt : n < 2 ^ 32) : toInt n < 0 := by
  rw [toInt, if_neg (by omega)]
  omega

/-- Stores elsewhere keep the tags of a block. -/
theorem Tagged.of_eqOutside {m m' : Mem} {p lo hi : ℕ} {b : Block} (h : Tagged m p b)
    (hout : EqOutside m m' lo hi) (hdis : p + b.size ≤ lo ∨ hi ≤ p) : Tagged m' p b := by
  have hmin := h.min
  exact h.congr (hout.read32_eq (by omega)) (hout.read32_eq (by omega))

namespace Rep

variable {h : Heap} {bs : List Block} {L : ℕ → List ℕ}

/-- `mem_sbrk` with an unsigned increment: the heap grows when there is room, and
an increment that is negative as an `int` is refused with all that do not fit. -/
theorem memSbrk_eq (hr : Rep h bs L) {n : ℕ} (hn : n < 2 ^ 32) :
    memSbrk h (toInt n) =
      if h.memBrk + n ≤ MAX_HEAP then ({ h with memBrk := h.memBrk + n }, h.memBrk)
      else (h, minusOne) := by
  have hsmall := hr.small
  have hmax := hr.maxAddr
  have hval := maxHeap_eq
  by_cases hneg : n < 2 ^ 31
  · have hsum : u32 (h.memBrk + n) = h.memBrk + n := Nat.mod_eq_of_lt (by omega)
    have hpos : ¬ (n : ℤ) < 0 := by omega
    simp only [memSbrk, toInt_of_lt hneg, Int.toNat_natCast, hsum, hmax, hpos, false_or]
    by_cases hfit : h.memBrk + n ≤ MAX_HEAP
    · rw [if_neg (by omega), if_pos hfit]
    · rw [if_pos (by omega), if_neg hfit]
  · have hint : toInt n < 0 := toInt_neg (by omega) hn
    have hfull : ¬ h.memBrk + n ≤ MAX_HEAP := by omega
    simp only [memSbrk, hint, hfull, true_or, if_true, if_false]

/-! ## The last block -/

end Rep

/-- Store the tags of the last block, and the epilogue after it. -/
def writeLast (m : Mem) (p : ℕ) (b : Block) : Mem :=
  write32 (writeTags m p b) (p + b.size) (pack 0 1)

theorem eqOutside_writeLast (m : Mem) {p : ℕ} {b : Block} (hmin : 16 ≤ b.size) :
    EqOutside m (writeLast m p b) p (p + b.size + 4) := by
  intro x hx
  rw [writeLast, write32_apply_of_disjoint _ _ (by omega)]
  exact eqOutside_writeTags m hmin x (by omega)

theorem tagged_writeLast {m : Mem} {p : ℕ} {b : Block} (hd : b.size % 8 = 0) (hmin : 16 ≤ b.size)
    (hlt : b.word < 2 ^ 32) : Tagged (writeLast m p b) p b :=
  (tagged_writeTags hd hmin hlt).of_eqOutside
    ((EqOutside.refl _ (p + b.size) (p + b.size + 4)).write32 _ le_rfl le_rfl) (Or.inl le_rfl)

/-- The word after a block, found through `NEXT_BLKP` or through `FTRP`. -/
theorem Tagged.end_eq {h : Heap} {p : ℕ} {b : Block} (ht : Tagged h.mem p b) :
    hdrp (nextBlkp h (p + 12)) = p + b.size ∧ ftrp h (p + 12) + WSIZE = p + b.size := by
  have hmin := ht.min
  constructor
  · rw [nextBlkp_of_header ht.header ht.dvd, hdrp_add]
  · rw [ftrp_of_header ht.header ht.dvd]
    change p + b.size - 4 + 4 = _
    omega

namespace Rep

variable {h : Heap} {bs : List Block} {L : ℕ → List ℕ}

/-- **The last blocks, on no list, become one larger block**, when the break moves
to its end. -/
theorem regrow_one {xs mid : List Block} {b : Block} {k : ℕ} (hr : Rep h (xs ++ mid) L)
    (hmid : ∀ c ∈ mid, c.tag ≠ .free) (hb : b.tag ≠ .free)
    (hroom : b.size = total Block.size mid + k) (hd : b.size % 8 = 0) (hmin : 16 ≤ b.size)
    (hfit : h.memBrk + k ≤ MAX_HEAP) :
    Rep { h with mem := writeLast h.mem (420 + total Block.size xs) b, memBrk := h.memBrk + k }
      (xs ++ [b]) L := by
  have hbrk := hr.brk
  have hval := maxHeap_eq
  rw [total_append] at hbrk
  have hlt : b.word < 2 ^ 32 := Block.word_lt (by omega)
  refine hr.regrow mid [b] rfl rfl rfl hmid (by simpa using hb) ?_ hfit ?_ ?_ ?_
  · simp only [total_append, total_cons, total_nil]
    omega
  · exact fun x hx => eqOutside_writeLast h.mem hmin x (Or.inl hx)
  · intro p c hp
    simp only [placed_cons, placed_nil, List.mem_singleton, Prod.mk.injEq] at hp
    obtain ⟨rfl, rfl⟩ := hp
    exact tagged_writeLast hd hmin hlt
  · have hend : 420 + total Block.size (xs ++ [b]) = 420 + total Block.size xs + b.size := by
      simp [Nat.add_assoc]
    rw [hend]
    exact read32_write32_same _ _ (by norm_num [pack])

/-! ## `extend_heap` -/

/-- The words argument of `extend_heap` stands for the size itself. -/
theorem extendSize_eq {asize : ℕ} (hmod : asize % 8 = 0) (hlt : asize < 2 ^ 32) :
    (if asize / WSIZE % 2 ≠ 0 then u32 (u32 (asize / WSIZE + 1) * WSIZE)
      else u32 (asize / WSIZE * WSIZE)) = asize := by
  have hw : asize / WSIZE * WSIZE = asize := Nat.div_mul_cancel (Nat.dvd_of_mod_eq_zero (by
    change asize % 4 = 0
    omega))
  have heven : asize / WSIZE % 2 = 0 := by
    change asize / 4 % 2 = 0
    omega
  rw [heven, if_neg (by simp), hw]
  exact Nat.mod_eq_of_lt hlt

/-- `mem_sbrk`, with the event it leaves. -/
theorem logged_memSbrk (hr : Rep h bs L) {n : ℕ} (hn : n < 2 ^ 32) :
    Logged.memSbrk h (toInt n) =
      if h.memBrk + n ≤ MAX_HEAP then
        ⟨[.sbrk h.memBrk (toInt n) h.memBrk (h.memBrk + n)],
          .ok ({ h with memBrk := h.memBrk + n }, h.memBrk)⟩
      else ⟨[.sbrk h.memBrk (toInt n) minusOne h.memBrk], .ok (h, minusOne)⟩ := by
  rw [Logged.memSbrk, hr.memSbrk_eq hn]
  split_ifs <;> rfl

/-- **`extend_heap` refused**: no room, nothing changes. -/
theorem extendHeap_refused (hr : Rep h bs L) {asize : ℕ} (hmod : asize % 8 = 0)
    (hlt : asize < 2 ^ 32) (hfull : MAX_HEAP < h.memBrk + asize) :
    Logged.extendHeap h (asize / WSIZE) =
      ⟨[.sbrk h.memBrk (toInt asize) minusOne h.memBrk], .ok (h, 0)⟩ := by
  have hno : ¬ h.memBrk + asize ≤ MAX_HEAP := by omega
  unfold Logged.extendHeap
  rw [extendSize_eq hmod hlt]
  dsimp only
  rw [hr.logged_memSbrk hlt, if_neg hno, bind_of_ok rfl]
  dsimp only
  rw [if_pos rfl]
  rfl

/-- **`extend_heap` up to `coalesce`** appends a block that is on no list. -/
theorem extendHeap_append (hr : Rep h bs L) {asize : ℕ} (hmod : asize % 8 = 0)
    (hmin : 16 ≤ asize) (hfit : h.memBrk + asize ≤ MAX_HEAP) :
    ∃ m', Logged.extendHeap h (asize / WSIZE) = (do
        emit (.sbrk h.memBrk (toInt asize) h.memBrk (h.memBrk + asize))
        Logged.coalesce { h with mem := m', memBrk := h.memBrk + asize }
          (420 + total Block.size bs + 12)) ∧
      Rep { h with mem := m', memBrk := h.memBrk + asize } (bs ++ [⟨asize, .loose⟩]) L ∧
      PayloadEq bs h.mem m' := by
  have hval := maxHeap_eq
  have hlt : asize < 2 ^ 32 := by omega
  have hbrk := hr.brk
  obtain ⟨p, hp⟩ : ∃ p, p = 420 + total Block.size bs := ⟨_, rfl⟩
  refine ⟨writeLast h.mem p ⟨asize, .loose⟩, ?_, ?_, ?_⟩
  · have hbp : h.memBrk + DSIZE = p + 12 := by
      change h.memBrk + 8 = _
      omega
    have hne := hr.memBrk_ne
    have hputs := put_tags (h := { h with memBrk := h.memBrk + asize }) (p := p)
      (b := ⟨asize, .loose⟩) hmod hlt
    have htag : Tagged (writeTags h.mem p ⟨asize, .loose⟩) p ⟨asize, .loose⟩ :=
      tagged_writeTags hmod hmin hlt
    have hnext := (htag.end_eq (h := { h with
      mem := writeTags h.mem p ⟨asize, .loose⟩, memBrk := h.memBrk + asize })).1
    simp only [Tag.bit] at hputs
    unfold Logged.extendHeap
    rw [extendSize_eq hmod hlt]
    dsimp only
    rw [hr.logged_memSbrk hlt, if_pos hfit, bind_of_ok rfl]
    dsimp only
    rw [if_neg hne, hbp, hputs, hnext, hp]
    rfl
  · rw [hp]
    rw [← List.append_nil bs] at hr
    simpa using hr.regrow_one (b := ⟨asize, .loose⟩) (by simp) (by simp) (by simp) hmod hmin hfit
  · intro q s hq x hx hx'
    have hb : 420 ≤ q ∧ q + s ≤ 420 + total Block.size bs := mem_placed_bounds hq
    exact eqOutside_writeLast h.mem (b := ⟨asize, .loose⟩) hmin x (by omega)

/-- **`extend_heap`** appends a block, joined with a free last block. -/
theorem extendHeap_spec {xs l : List Block} {asize : ℕ} (hr : Rep h (xs ++ l) L)
    (hl : LeftFree xs l) (hmod : asize % 8 = 0) (hmin : 16 ≤ asize)
    (hfit : h.memBrk + asize ≤ MAX_HEAP) (hclass : total Block.size l + asize ≤ 2 ^ 24) :
    ∃ m', Logged.extendHeap h (asize / WSIZE) =
        ⟨[.sbrk h.memBrk (toInt asize) h.memBrk (h.memBrk + asize),
          .add (420 + total Block.size xs + 12) (total Block.size l + asize)],
          .ok ({ h with mem := m', memBrk := h.memBrk + asize },
            420 + total Block.size xs + 12)⟩ ∧
      Rep { h with mem := m', memBrk := h.memBrk + asize }
        (xs ++ [⟨total Block.size l + asize, .free⟩]) (coalescedLists L xs l [] asize) ∧
      PayloadEq (xs ++ l) h.mem m' := by
  obtain ⟨m₁, hm₁, hr₁, hpay₁⟩ := hr.extendHeap_append hmod hmin hfit
  have hform : xs ++ l ++ [⟨asize, .loose⟩] = xs ++ (l ++ ⟨asize, .loose⟩ :: []) ++ [] := by simp
  rw [hform] at hr₁
  obtain ⟨m₂, hm₂, hr₂, hpay₂⟩ := hr₁.coalesce_spec (r := []) hl (Or.inl ⟨rfl, rfl⟩)
    (by simpa using hclass)
  refine ⟨m₂, ?_, by simpa using hr₂, ?_⟩
  · rw [hm₁, hm₂]
    rfl
  · refine hpay₁.trans ?_ hpay₂
    have := allocSub_append (xs ++ l) [⟨asize, .loose⟩]
    simpa [List.append_assoc] using this

/-- **`extend_heap` of a last block over `2 ^ 24` bytes** does not return. -/
theorem extendHeap_over {xs l : List Block} {asize : ℕ} (hr : Rep h (xs ++ l) L)
    (hl : LeftFree xs l) (hmod : asize % 8 = 0) (hmin : 16 ≤ asize)
    (hfit : h.memBrk + asize ≤ MAX_HEAP) (hbig : 2 ^ 24 < total Block.size l + asize) :
    Logged.extendHeap h (asize / WSIZE) =
      ⟨[.sbrk h.memBrk (toInt asize) h.memBrk (h.memBrk + asize),
        .add (420 + total Block.size xs + 12) (total Block.size l + asize)], .error ()⟩ := by
  obtain ⟨m₁, hm₁, hr₁, -⟩ := hr.extendHeap_append hmod hmin hfit
  have hform : xs ++ l ++ [⟨asize, .loose⟩] = xs ++ (l ++ ⟨asize, .loose⟩ :: []) ++ [] := by simp
  rw [hform] at hr₁
  rw [hm₁, hr₁.coalesce_over (r := []) hl (Or.inl ⟨rfl, rfl⟩) (by simpa using hbig)]
  rfl

/-! ## `place` -/

/-- The tags of a loose block that is handed out whole. -/
theorem retag_whole {xs ys : List Block} {s : ℕ} (hr : Rep h (xs ++ [⟨s, .loose⟩] ++ ys) L) :
    Rep { h with mem := writeTags h.mem (420 + total Block.size xs) ⟨s, .alloc⟩ }
        (xs ++ [⟨s, .alloc⟩] ++ ys) L ∧
      PayloadEq (xs ++ [⟨s, .loose⟩] ++ ys) h.mem
        (writeTags h.mem (420 + total Block.size xs) ⟨s, .alloc⟩) := by
  have hplace := mem_placed_split Block.size 420 xs ⟨s, .loose⟩ ys
  rw [List.append_cons] at hplace
  have hmin : 16 ≤ s := (hr.block_bounds hplace).2.2.1
  have hout := eqOutside_writeTags h.mem (p := 420 + total Block.size xs) (b := ⟨s, .alloc⟩) hmin
  exact ⟨hr.retag_one (by simp) (by simp) (by simp) hmin,
    payloadEq_of_eqOutside (by simp) (by simpa using hout)⟩

/-- The tags of a loose block that is split, and of its rest. -/
theorem retag_split {xs ys : List Block} {s asize : ℕ}
    (hr : Rep h (xs ++ [⟨s, .loose⟩] ++ ys) L) (hmod : asize % 8 = 0) (hmin : 16 ≤ asize)
    (hrest : 16 ≤ s - asize) {p : ℕ} (hp : p = 420 + total Block.size xs) {m₂ m₃ : Mem}
    (hm₂ : m₂ = writeTags h.mem p ⟨asize, .alloc⟩)
    (hm₃ : m₃ = writeTags m₂ (p + asize) ⟨s - asize, .loose⟩) :
    Tagged m₂ p ⟨asize, .alloc⟩ ∧
      Rep { h with mem := m₃ } (xs ++ [⟨asize, .alloc⟩, ⟨s - asize, .loose⟩] ++ ys) L ∧
      PayloadEq (xs ++ [⟨s, .loose⟩] ++ ys) h.mem m₃ := by
  have hplace := mem_placed_split Block.size 420 xs ⟨s, .loose⟩ ys
  rw [List.append_cons] at hplace
  have hb := hr.block_bounds hplace
  have hsmall := hr.small
  have hval := maxHeap_eq
  simp only at hb
  have hword₂ : (Block.mk asize .alloc).word < 2 ^ 32 := by rw [word_alloc]; omega
  have hword₃ : (Block.mk (s - asize) .loose).word < 2 ^ 32 := by rw [word_loose]; omega
  have htag₂ : Tagged m₂ p ⟨asize, .alloc⟩ := hm₂ ▸ tagged_writeTags hmod hmin hword₂
  have htag₃ : Tagged m₃ (p + asize) ⟨s - asize, .loose⟩ :=
    hm₃ ▸ tagged_writeTags (by simp only; omega) hrest hword₃
  have hout₂ : EqOutside h.mem m₂ p (p + asize) :=
    hm₂ ▸ eqOutside_writeTags h.mem (b := ⟨asize, .alloc⟩) hmin
  have hout₃ : EqOutside m₂ m₃ (p + asize) (p + s) := by
    have := eqOutside_writeTags m₂ (p := p + asize) (b := ⟨s - asize, .loose⟩) hrest
    rw [← hm₃] at this
    intro x hx
    exact this x (by simp only; omega)
  have hout : EqOutside h.mem m₃ p (p + s) := fun x hx => by
    rw [hout₃ x (by omega), hout₂ x (by omega)]
  subst hp
  refine ⟨htag₂, ?_, payloadEq_of_eqOutside (by simp) (by simpa using hout)⟩
  refine hr.retag [⟨asize, .alloc⟩, ⟨s - asize, .loose⟩] m₃ (by simp) (by simp)
    (by simp only [total_cons, total_nil]; omega) (by simpa using hout) ?_
  intro q b hq
  simp only [placed_cons, placed_nil, List.mem_cons, Prod.mk.injEq, List.not_mem_nil,
    or_false] at hq
  rcases hq with ⟨rfl, rfl⟩ | ⟨rfl, rfl⟩
  · exact htag₂.of_eqOutside hout₃ (Or.inl le_rfl)
  · exact htag₃

/-- The lists after `place`: the block is erased, and the rest that is split off is put
at the front of the list of its class. -/
def placedLists (L : ℕ → List ℕ) (xs : List Block) (s asize : ℕ) : ℕ → List ℕ :=
  let rest := fun i => (L i).erase (420 + total Block.size xs + 12)
  if 16 ≤ s - asize then coalescedLists rest (xs ++ [⟨asize, .alloc⟩]) [] [] (s - asize) else rest

/-- The event of `place`: the rest that is split off is filed. -/
def placedEvents (xs : List Block) (s asize : ℕ) : List HeapEvent :=
  if 16 ≤ s - asize then [.add (420 + total Block.size xs + asize + 12) (s - asize)] else []

/-- **`place`** allocates a free block, and splits off what is left of it when
that is at least 16 bytes. -/
theorem place_spec {xs ys : List Block} {s asize : ℕ} (hr : Rep h (xs ++ ⟨s, .free⟩ :: ys) L)
    (hys : (nextBlock ys).tag = .alloc) (hmod : asize % 8 = 0) (hmin : 16 ≤ asize)
    (hle : asize ≤ s) :
    ∃ m', Logged.place h (420 + total Block.size xs + 12) asize =
        ⟨placedEvents xs s asize, .ok ({ h with mem := m' }, 420 + total Block.size xs + 4)⟩ ∧
      Rep { h with mem := m' } (xs ++ splitBlock s asize ++ ys) (placedLists L xs s asize) ∧
      PayloadEq (xs ++ ⟨s, .free⟩ :: ys) h.mem m' := by
  have hplace := mem_placed_split Block.size 420 xs ⟨s, .free⟩ ys
  have hb := hr.block_bounds hplace
  have hsmall := hr.small
  have hval := maxHeap_eq
  have hclass := hr.classes _ _ hplace
  have hsize := hr.getSize_node hplace
  simp only at hb hsize
  obtain ⟨p, hp⟩ : ∃ p, p = 420 + total Block.size xs := ⟨_, rfl⟩
  rw [← hp] at hb hsize
  obtain ⟨m₁, hm₁, hr₁, hpay₁⟩ := hr.heapRemove_spec rfl
  rw [← hp] at hm₁
  rw [List.append_cons] at hr₁
  have hrest : u32 (s + 2 ^ 32 - asize) = s - asize := by
    rw [u32]
    omega
  have hret : p + 12 - DSIZE = p + 4 := by
    change p + 12 - 8 = _
    omega
  have hsub : AllocSub (xs ++ ⟨s, .free⟩ :: ys) (xs ++ [⟨s, .loose⟩] ++ ys) := by
    rw [List.append_cons]
    exact allocSub_of_mid (by simp) (by simp)
  by_cases hsplit : 16 ≤ s - asize
  · -- the block is split: two pairs of tags, then `coalesce` files the rest
    have hsplit' : s - asize ≥ 4 * WSIZE := hsplit
    have hmodr : (s - asize) % 8 = 0 := by omega
    obtain ⟨m₂, hm₂⟩ : ∃ m₂, m₂ = writeTags m₁ p ⟨asize, .alloc⟩ := ⟨_, rfl⟩
    obtain ⟨m₃, hm₃⟩ : ∃ m₃, m₃ = writeTags m₂ (p + asize) ⟨s - asize, .loose⟩ := ⟨_, rfl⟩
    obtain ⟨htag₂, hr₃, hpay₃⟩ := hr₁.retag_split hmod hmin hsplit hp hm₂ hm₃
    have hform : xs ++ [⟨asize, .alloc⟩, ⟨s - asize, .loose⟩] ++ ys =
        (xs ++ [⟨asize, .alloc⟩]) ++ ([] ++ ⟨s - asize, .loose⟩ :: []) ++ ys := by simp
    rw [hform] at hr₃
    obtain ⟨m₄, hm₄, hr₄, hpay₄⟩ := hr₃.coalesce_spec
      (Or.inl ⟨rfl, by rw [prevBlock_concat]⟩) (Or.inl ⟨rfl, hys⟩)
      (by simp only [total_nil]; omega)
    simp only [total_nil, Nat.zero_add, Nat.add_zero] at hm₄ hr₄
    have hpos : 420 + total Block.size (xs ++ [⟨asize, .alloc⟩] ++ []) = p + asize := by
      rw [List.append_nil, total_append, total_cons, total_nil]
      simp only
      omega
    have hpos' : 420 + total Block.size (xs ++ [⟨asize, .alloc⟩]) = p + asize := by
      rw [← hpos, List.append_nil]
    rw [hpos, hpos'] at hm₄
    have hputs₂ := put_tags (h := { h with mem := m₁ }) (p := p) (b := ⟨asize, .alloc⟩) hmod
      (by rw [word_alloc]; omega)
    have hputs₃ := put_tags (h := { h with mem := m₂ }) (p := p + asize)
      (b := ⟨s - asize, .loose⟩) hmodr (by rw [word_loose]; omega)
    simp only [Tag.bit, ← hm₂, ← hm₃] at hputs₂ hputs₃
    have hnext : nextBlkp { h with mem := m₂ } (p + 12) = p + asize + 12 :=
      nextBlkp_of_header (h := { h with mem := m₂ }) htag₂.header hmod
    refine ⟨m₄, ?_, ?_, ?_⟩
    · rw [← hp, Logged.place, placedEvents, if_pos hsplit, ← hp]
      simp only [hsize, hm₁, hrest, hsplit', if_true, require_some, Prog.pure_bind, hputs₂, hnext,
        hputs₃, hm₄, hret]
      rfl
    · rw [splitBlock, if_pos hsplit, placedLists, if_pos hsplit]
      simpa using hr₄
    · have hsub' : AllocSub (xs ++ ⟨s, .free⟩ :: ys)
          ((xs ++ [⟨asize, .alloc⟩]) ++ ([] ++ ⟨s - asize, .loose⟩ :: []) ++ ys) := by
        rw [← hform, List.append_cons]
        exact allocSub_of_mid (by simp) (by simp only [total_cons, total_nil]; omega)
      exact (hpay₁.trans hsub hpay₃).trans hsub' hpay₄
  · -- the whole block is handed out
    have hsplit' : ¬ s - asize ≥ 4 * WSIZE := hsplit
    obtain ⟨hr₂, hpay₂⟩ := hr₁.retag_whole
    have hputs := put_tags (h := { h with mem := m₁ }) (p := p) (b := ⟨s, .alloc⟩)
      hb.2.2.2.1 (by rw [word_alloc]; omega)
    simp only [Tag.bit] at hputs
    refine ⟨writeTags m₁ p ⟨s, .alloc⟩, ?_, ?_, ?_⟩
    · rw [← hp, Logged.place, placedEvents, if_neg hsplit]
      simp only [hsize, hm₁, hrest, hsplit', if_false, require_some, Prog.pure_bind, hputs, hret]
      rfl
    · rw [splitBlock, if_neg hsplit, placedLists, if_neg hsplit, hp]
      exact hr₂
    · rw [hp]
      exact hpay₁.trans hsub hpay₂

end Rep

end Malloc
