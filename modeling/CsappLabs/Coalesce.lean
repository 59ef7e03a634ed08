/-
# Boundary tags: `coalesce`, `extend_heap`, `place`

The functions that rewrite headers and footers.  Each spec gives the block list
after the call in terms of the one before: `coalesce` joins a loose block with
its free neighbours into one free block, `extend_heap` appends a block and
coalesces it, `place` allocates a free block and splits off what is left when
that is at least 16 bytes.

A store of a header and a footer is `writeTags`; the two `PUT`s of the source,
the second of which reads the header just stored, are one such store
(`put_tags`).
-/
import CsappLabs.FreeLists
import CsappLabs.HeapEvents

open WordMemory LinkedChain Layout Effects Prog

namespace Malloc

/-! ## Storing a header and a footer -/

/-- Store the header and the footer of `b` at `p`. -/
def writeTags (m : Mem) (p : ℕ) (b : Block) : Mem :=
  write32 (write32 m p b.word) (p + b.size - 4) b.word

theorem tagged_writeTags {m : Mem} {p : ℕ} {b : Block} (hd : b.size % 8 = 0) (hmin : 16 ≤ b.size)
    (hlt : b.word < 2 ^ 32) : Tagged (writeTags m p b) p b where
  dvd := hd
  min := hmin
  header := by
    rw [writeTags, read32_write32_disjoint _ _ (by omega), read32_write32_same _ _ hlt]
  footer := read32_write32_same _ _ hlt

theorem eqOutside_writeTags (m : Mem) {p : ℕ} {b : Block} (hmin : 16 ≤ b.size) :
    EqOutside m (writeTags m p b) p (p + b.size) :=
  ((EqOutside.refl m p (p + b.size)).write32 _ (by omega) (by omega)).write32 _
    (by omega) (by omega)

/-- The two `PUT`s that tag a block: the second finds the footer through the
header just stored. -/
theorem put_tags {h : Heap} {p : ℕ} {b : Block} (hd : b.size % 8 = 0) (hlt : b.word < 2 ^ 32) :
    put (put h (hdrp (p + 12)) (pack b.size b.tag.bit))
        (ftrp (put h (hdrp (p + 12)) (pack b.size b.tag.bit)) (p + 12)) (pack b.size b.tag.bit) =
      { h with mem := writeTags h.mem p b } := by
  have hw : pack b.size b.tag.bit = b.word := pack_eq hd b.tag.bit_le
  have hread : read32 (put h p b.word).mem p = b.word := read32_write32_same _ _ hlt
  have hf : ftrp (put h p b.word) (p + 12) = p + b.size - 4 := ftrp_of_header hread hd
  rw [hdrp_add, hw, hf]
  rfl

/-! ## Keeping payloads -/

/-- The allocated blocks of `bs` are allocated blocks of `bs'`. -/
def AllocSub (bs bs' : List Block) : Prop :=
  ∀ p s, (p, ⟨s, .alloc⟩) ∈ placed Block.size 420 bs → (p, ⟨s, .alloc⟩) ∈ placed Block.size 420 bs'

theorem PayloadEq.refl (bs : List Block) (m : Mem) : PayloadEq bs m m :=
  fun _ _ _ _ _ _ => rfl

theorem PayloadEq.trans {bs bs' : List Block} {m m' m'' : Mem} (h : PayloadEq bs m m')
    (hsub : AllocSub bs bs') (h' : PayloadEq bs' m' m'') : PayloadEq bs m m'' :=
  fun p s hp x hx hx' => (h' p s (hsub p s hp) x hx hx').trans (h p s hp x hx hx')

/-- Blocks that are not allocated may change. -/
theorem allocSub_of_mid {xs mid mid' ys : List Block} (hmid : ∀ b ∈ mid, b.tag ≠ .alloc)
    (htotal : total Block.size mid' = total Block.size mid) :
    AllocSub (xs ++ mid ++ ys) (xs ++ mid' ++ ys) := by
  intro p s hp
  simp only [placed_append, List.mem_append, total_append, htotal, ← Nat.add_assoc] at hp ⊢
  rcases hp with (hp | hp) | hp
  · exact Or.inl (Or.inl hp)
  · exact absurd rfl (hmid _ (mem_of_mem_placed hp))
  · exact Or.inr hp

theorem allocSub_append (xs ys : List Block) : AllocSub xs (xs ++ ys) := by
  intro p s hp
  rw [placed_append]
  exact List.mem_append_left _ hp

/-- Stores into blocks that are not allocated keep every payload. -/
theorem payloadEq_of_eqOutside {xs mid ys : List Block} {m m' : Mem}
    (hmid : ∀ b ∈ mid, b.tag ≠ .alloc)
    (h : EqOutside m m' (420 + total Block.size xs)
      (420 + total Block.size xs + total Block.size mid)) :
    PayloadEq (xs ++ mid ++ ys) m m' := by
  intro p s hp x hx hx'
  simp only [placed_append, List.mem_append, total_append, ← Nat.add_assoc] at hp
  rcases hp with (hp | hp) | hp
  · have hb : 420 ≤ p ∧ p + s ≤ 420 + total Block.size xs := mem_placed_bounds hp
    exact h x (by omega)
  · exact absurd rfl (hmid _ (mem_of_mem_placed hp))
  · have hb := mem_placed_bounds hp
    exact h x (by omega)

/-! ## One block in the place of several -/

theorem Block.word_lt {b : Block} (h : b.size < 2 ^ 31) : b.word < 2 ^ 32 := by
  have hbit := b.tag.bit_le
  rw [Block.word]
  omega

namespace Rep

variable {h : Heap} {bs : List Block} {L : ℕ → List ℕ}

/-- Sizes of client blocks add up to multiples of eight. -/
theorem total_mod {xs mid ys : List Block} (hr : Rep h (xs ++ mid ++ ys) L) :
    total Block.size mid % 8 = 0 := by
  have hall : ∀ b ∈ mid, b.size % 8 = 0 := by
    intro b hb
    obtain ⟨us, vs, rfl⟩ := List.append_of_mem hb
    have hp := mem_placed_split Block.size 420 (xs ++ us) b (vs ++ ys)
    exact (hr.tagged _ b (by simpa [List.append_assoc] using hp)).dvd
  clear hr
  induction mid with
  | nil => rfl
  | cons b mid ih =>
      have h1 := hall b (by simp)
      have h2 := ih fun c hc => hall c (List.mem_cons_of_mem _ hc)
      rw [total_cons]
      omega

/-- **Blocks on no list become one block** on no list, when the two tags of that
block are stored. -/
theorem retag_one {xs mid ys : List Block} {b : Block} (hr : Rep h (xs ++ mid ++ ys) L)
    (hmid : ∀ c ∈ mid, c.tag ≠ .free) (hb : b.tag ≠ .free) (hroom : b.size = total Block.size mid)
    (hmin : 16 ≤ b.size) :
    Rep { h with mem := writeTags h.mem (420 + total Block.size xs) b } (xs ++ [b] ++ ys) L := by
  have hmod : b.size % 8 = 0 := by
    rw [hroom]
    exact hr.total_mod
  have hlt : b.word < 2 ^ 32 := by
    have hbrk := hr.brk
    have hsmall := hr.small
    have hval := maxHeap_eq
    rw [total_append, total_append] at hbrk
    exact Block.word_lt (by omega)
  refine hr.retag [b] _ hmid (by simpa using hb) (by simpa using hroom) ?_ ?_
  · rw [← hroom]
    exact eqOutside_writeTags h.mem hmin
  · intro p c hp
    simp only [placed_cons, placed_nil, List.mem_singleton, Prod.mk.injEq] at hp
    obtain ⟨rfl, rfl⟩ := hp
    exact tagged_writeTags hmod hmin hlt

end Rep

/-! ## Neighbours -/

/-- The block before a position: the last one before it, or the last sentinel. -/
def prevBlock (xs : List Block) : Block := xs.getLast?.getD ⟨16, .alloc⟩

/-- The block after a position: the next one, or the epilogue, an allocated
block of size zero. -/
def nextBlock (ys : List Block) : Block := ys.head?.getD ⟨0, .alloc⟩

@[simp] theorem prevBlock_concat (xs : List Block) (b : Block) : prevBlock (xs ++ [b]) = b := by
  simp [prevBlock]

@[simp] theorem nextBlock_cons (b : Block) (ys : List Block) : nextBlock (b :: ys) = b := rfl

namespace Tagged

variable {h : Heap} {b : Block} {e : ℕ}

/-- `PREV_BLKP` of a block at `e`, when a tagged block ends there. -/
theorem prevBlkp_eq (ht : Tagged h.mem (e - b.size) b) (hle : b.size ≤ e) {bp : ℕ}
    (hbp : bp = e + 12) : prevBlkp h bp = bp - b.size := by
  have hmin := ht.min
  have hfoot : read32 h.mem (bp - DSIZE - DSIZE) = b.word := by
    rw [← ht.footer]
    congr 1
    change bp - 8 - 8 = _
    omega
  rw [prevBlkp, getSize_eq hfoot ht.dvd]

/-- The allocated bit `coalesce` reads in the footer of that block. -/
theorem prevAlloc_eq (ht : Tagged h.mem (e - b.size) b) (hle : b.size ≤ e) {bp : ℕ}
    (hbp : bp = e + 12) : getAlloc h (ftrp h (prevBlkp h bp)) = b.tag.bit := by
  have hmin := ht.min
  have hhead : hdrp (bp - b.size) = e - b.size := by
    rw [hdrp_eq]
    omega
  have hsize : getSize h (hdrp (bp - b.size)) = b.size := by
    rw [hhead]
    exact getSize_eq ht.header ht.dvd
  have hf : ftrp h (prevBlkp h bp) = e - b.size + b.size - 4 := by
    rw [ht.prevBlkp_eq hle hbp, ftrp, hsize]
    change _ - 8 - 8 = _
    omega
  rw [hf]
  exact getAlloc_eq ht.footer ht.dvd

end Tagged

namespace Rep

variable {h : Heap} {bs : List Block} {L : ℕ → List ℕ}

theorem lastSentinel (hr : Rep h bs L) : Tagged h.mem 404 ⟨16, .alloc⟩ :=
  hr.sentinel 404 _ (by decide)

/-- The tags of the block before a position. -/
theorem tagged_prev {xs ys : List Block} (hr : Rep h (xs ++ ys) L) :
    (prevBlock xs).size + 4 ≤ 420 + total Block.size xs ∧
      Tagged h.mem (420 + total Block.size xs - (prevBlock xs).size) (prevBlock xs) := by
  rcases List.eq_nil_or_concat xs with rfl | ⟨zs, c, rfl⟩
  · exact ⟨by simp [prevBlock], hr.lastSentinel⟩
  · rw [List.concat_eq_append] at hr ⊢
    rw [List.append_assoc, List.singleton_append] at hr
    have hp := mem_placed_split Block.size 420 zs c ys
    have htotal : 420 + total Block.size (zs ++ [c]) - c.size = 420 + total Block.size zs := by
      rw [total_append, total_cons, total_nil]
      omega
    rw [prevBlock_concat, htotal]
    refine ⟨?_, hr.tagged _ _ hp⟩
    rw [total_append, total_cons, total_nil]
    omega

/-- The header of the block after a position. -/
theorem header_next {xs ys : List Block} (hr : Rep h (xs ++ ys) L) :
    (nextBlock ys).size % 8 = 0 ∧
      read32 h.mem (420 + total Block.size xs) = (nextBlock ys).word := by
  cases ys with
  | nil =>
      have := hr.epilogue
      rw [List.append_nil] at this
      exact ⟨rfl, this⟩
  | cons c ys =>
      have ht := hr.tagged _ _ (mem_placed_split Block.size 420 xs c ys)
      exact ⟨ht.dvd, ht.header⟩

/-- `PREV_BLKP` of the block at a position. -/
theorem prevBlkp_eq {xs ys : List Block} (hr : Rep h (xs ++ ys) L) (bp : ℕ)
    (hbp : bp = 420 + total Block.size xs + 12) :
    prevBlkp h bp = bp - (prevBlock xs).size := by
  obtain ⟨hle, ht⟩ := hr.tagged_prev
  exact ht.prevBlkp_eq (by omega) hbp

/-- The allocated bit `coalesce` reads in the footer of the previous block. -/
theorem prevAlloc_eq {xs ys : List Block} (hr : Rep h (xs ++ ys) L) {bp : ℕ}
    (hbp : bp = 420 + total Block.size xs + 12) :
    getAlloc h (ftrp h (prevBlkp h bp)) = (prevBlock xs).tag.bit := by
  obtain ⟨hle, ht⟩ := hr.tagged_prev
  exact ht.prevAlloc_eq (by omega) hbp

/-- `NEXT_BLKP` of a block. -/
theorem nextBlkp_eq (hr : Rep h bs L) {p : ℕ} {b : Block}
    (hp : (p, b) ∈ placed Block.size 420 bs) : nextBlkp h (p + 12) = p + b.size + 12 :=
  nextBlkp_of_header (hr.tagged p b hp).header (hr.tagged p b hp).dvd

/-- The allocated bit in the header of the block at a position. -/
theorem nextAlloc_eq {xs ys : List Block} (hr : Rep h (xs ++ ys) L) :
    getAlloc h (hdrp (420 + total Block.size xs + 12)) = (nextBlock ys).tag.bit := by
  obtain ⟨hd, hw⟩ := hr.header_next
  rw [hdrp_add]
  exact getAlloc_eq hw hd

end Rep

/-! ## `coalesce` -/

/-- `l` is the free block that ends at the end of `xs ++ l`, if there is one. -/
def LeftFree (xs l : List Block) : Prop :=
  (l = [] ∧ (prevBlock xs).tag = .alloc) ∨ ∃ a, l = [⟨a, .free⟩]

/-- `r` is the free block that starts `r ++ ys`, if there is one. -/
def RightFree (r ys : List Block) : Prop :=
  (r = [] ∧ (nextBlock ys).tag = .alloc) ∨ ∃ a, r = [⟨a, .free⟩]

/-- The same blocks, on no list. -/
def loosen (bs : List Block) : List Block := bs.map fun b => ⟨b.size, .loose⟩

@[simp] theorem total_loosen (bs : List Block) :
    total Block.size (loosen bs) = total Block.size bs := by
  simp [loosen, total, Function.comp_def]

theorem tag_of_mem_loosen {bs : List Block} {b : Block} (h : b ∈ loosen bs) : b.tag = .loose := by
  obtain ⟨c, -, rfl⟩ := List.mem_map.mp h
  rfl

/-- The block pointers of blocks laid out from `a`. -/
def pointers (a : ℕ) (bs : List Block) : List ℕ := (placed Block.size a bs).map (·.1 + 12)

/-- The blocks at the left of a loose block that `coalesce` absorbs. -/
theorem LeftFree.tag {xs l : List Block} (h : LeftFree xs l) : ∀ b ∈ l, b.tag ≠ .alloc := by
  rcases h with ⟨rfl, -⟩ | ⟨a, rfl⟩ <;> simp

theorem RightFree.tag {r ys : List Block} (h : RightFree r ys) : ∀ b ∈ r, b.tag ≠ .alloc := by
  rcases h with ⟨rfl, -⟩ | ⟨a, rfl⟩ <;> simp

/-- No block that `coalesce` joins is allocated. -/
theorem not_alloc_of_joined {xs l r ys : List Block} {s : ℕ} (hl : LeftFree xs l)
    (hrr : RightFree r ys) : ∀ b ∈ l ++ ⟨s, .loose⟩ :: r, b.tag ≠ .alloc := by
  intro b hb
  rcases List.mem_append.mp hb with hb | hb
  · exact hl.tag b hb
  · rcases List.mem_cons.mp hb with rfl | hb
    · simp
    · exact hrr.tag b hb

namespace Rep

variable {h : Heap} {bs : List Block} {L : ℕ → List ℕ}

/-- The first branch of `coalesce` unlinks the free block on the left, and moves
`bp` to it. -/
theorem coalescePrev_spec {xs l zs : List Block} (size : ℕ) (hr : Rep h (xs ++ l ++ zs) L)
    (hl : LeftFree xs l) (hsize : size + total Block.size l < 2 ^ 32) :
    ∃ m', coalescePrev h (prevBlock (xs ++ l)).tag.bit
          (420 + total Block.size (xs ++ l) + 12 - (prevBlock (xs ++ l)).size)
          (420 + total Block.size (xs ++ l) + 12) size =
        some ({ h with mem := m' }, 420 + total Block.size xs + 12,
          size + total Block.size l) ∧
      Rep { h with mem := m' } (xs ++ loosen l ++ zs)
        (fun i => (L i).diff (pointers (420 + total Block.size xs) l)) ∧
      PayloadEq (xs ++ l ++ zs) h.mem m' := by
  rcases hl with ⟨rfl, ht⟩ | ⟨a, rfl⟩
  · refine ⟨h.mem, ?_, by simpa [loosen, pointers] using hr, PayloadEq.refl _ _⟩
    rw [List.append_nil, ht, coalescePrev, if_neg (by decide)]
    rfl
  · rw [List.append_assoc, List.singleton_append] at hr
    have hp := mem_placed_split Block.size 420 xs ⟨a, .free⟩ zs
    have htotal : total Block.size (xs ++ [⟨a, .free⟩]) = total Block.size xs + a := by simp
    have hpre : 420 + total Block.size (xs ++ [⟨a, .free⟩]) + 12 - a =
        420 + total Block.size xs + 12 := by omega
    obtain ⟨m', hm, hr', hpay⟩ := hr.heapRemove_spec rfl
    have hget := hr.getSize_node hp
    have hr'' : Rep { h with mem := m' } ((xs ++ [⟨a, .loose⟩]) ++ zs)
        (fun i => (L i).erase (420 + total Block.size xs + 12)) := by
      rw [List.append_assoc, List.singleton_append]
      exact hr'
    have hback := hr''.prevBlkp_eq (420 + total Block.size (xs ++ [⟨a, .free⟩]) + 12)
      (by simp)
    simp only [total_cons, total_nil, Nat.add_zero] at hsize
    refine ⟨m', ?_, ?_, ?_⟩
    · rw [coalescePrev, prevBlock_concat, if_pos (by rfl)]
      simp only [hpre, hget, hm, Option.bind_eq_bind, Option.bind_some, total_cons, total_nil,
        Nat.add_zero, hback, prevBlock_concat]
      rw [u32, Nat.mod_eq_of_lt hsize]
    · rw [List.append_assoc]
      simpa [loosen, pointers, List.diff] using hr'
    · simpa using hpay

/-- The second branch of `coalesce` unlinks the free block on the right. -/
theorem coalesceNext_spec {xs r ys : List Block} (size : ℕ) (hr : Rep h (xs ++ r ++ ys) L)
    (hrr : RightFree r ys) (hsize : size + total Block.size r < 2 ^ 32) :
    ∃ m', coalesceNext h (nextBlock (r ++ ys)).tag.bit (420 + total Block.size xs + 12) size =
        some ({ h with mem := m' }, size + total Block.size r) ∧
      Rep { h with mem := m' } (xs ++ loosen r ++ ys)
        (fun i => (L i).diff (pointers (420 + total Block.size xs) r)) ∧
      PayloadEq (xs ++ r ++ ys) h.mem m' := by
  rcases hrr with ⟨rfl, ht⟩ | ⟨a, rfl⟩
  · refine ⟨h.mem, ?_, by simpa [loosen, pointers] using hr, PayloadEq.refl _ _⟩
    rw [List.nil_append, ht, coalesceNext, if_neg (by decide)]
    rfl
  · rw [List.append_assoc, List.singleton_append] at hr
    have hp := mem_placed_split Block.size 420 xs ⟨a, .free⟩ ys
    obtain ⟨m', hm, hr', hpay⟩ := hr.heapRemove_spec rfl
    have hget := hr.getSize_node hp
    simp only [total_cons, total_nil, Nat.add_zero] at hsize
    refine ⟨m', ?_, ?_, ?_⟩
    · rw [coalesceNext, List.singleton_append, nextBlock_cons, if_pos (by rfl)]
      simp only [hget, hm, Option.bind_eq_bind, Option.bind_some, total_cons, total_nil,
        Nat.add_zero]
      rw [u32, Nat.mod_eq_of_lt hsize]
    · rw [List.append_assoc]
      simpa [loosen, pointers, List.diff] using hr'
    · simpa using hpay

/-- What `coalesce` reads first: the block before, the block after, their
allocated bits, and the size of the block. -/
theorem coalesce_reads {xs ys : List Block} {s : ℕ} (hr : Rep h (xs ++ ⟨s, .loose⟩ :: ys) L) :
    prevBlkp h (420 + total Block.size xs + 12) =
        420 + total Block.size xs + 12 - (prevBlock xs).size ∧
      getAlloc h (ftrp h (420 + total Block.size xs + 12 - (prevBlock xs).size)) =
        (prevBlock xs).tag.bit ∧
      nextBlkp h (420 + total Block.size xs + 12) =
        420 + total Block.size (xs ++ [⟨s, .loose⟩]) + 12 ∧
      getAlloc h (hdrp (420 + total Block.size (xs ++ [⟨s, .loose⟩]) + 12)) =
        (nextBlock ys).tag.bit ∧
      getSize h (hdrp (420 + total Block.size xs + 12)) = s := by
  have hp := mem_placed_split Block.size 420 xs ⟨s, .loose⟩ ys
  have hpre := hr.prevBlkp_eq _ rfl
  have hprev := hr.prevAlloc_eq rfl
  have hnxt := hr.nextBlkp_eq hp
  have hend : 420 + total Block.size xs + s + 12 =
      420 + total Block.size (xs ++ [⟨s, .loose⟩]) + 12 := by
    simp [Nat.add_assoc]
  rw [hpre] at hprev
  rw [hend] at hnxt
  have hsize := hr.getSize_node hp
  rw [List.append_cons] at hr
  exact ⟨hpre, hprev, hnxt, hr.nextAlloc_eq, hsize⟩

/-- The lists without the neighbours that `coalesce` absorbs. -/
def joinedLists (L : ℕ → List ℕ) (xs l r : List Block) (s : ℕ) : ℕ → List ℕ := fun i =>
  ((L i).diff (pointers (420 + total Block.size xs) l)).diff
    (pointers (420 + total Block.size (xs ++ l) + s) r)

/-- The lists after `coalesce`: the absorbed neighbours are erased, and the new
block is put at the front of the list of its class. -/
def coalescedLists (L : ℕ → List ℕ) (xs l r : List Block) (s : ℕ) : ℕ → List ℕ := fun i =>
  if i = Nat.clog 2 (total Block.size l + s + total Block.size r) then
    (420 + total Block.size xs + 12) :: joinedLists L xs l r s i
  else joinedLists L xs l r s i

/-- `heap_add` for a loose block, with the event it leaves. -/
theorem logged_heapAdd {xs ys : List Block} {s n : ℕ} (hr : Rep h (xs ++ ⟨s, .loose⟩ :: ys) L)
    (hn : n = 420 + total Block.size xs + 12) :
    Logged.heapAdd h n = (do emit (.add n s); require () (heapAdd h n)) := by
  rw [Logged.heapAdd, (hr.class_of_loose hn).1]

/-- **`coalesce` up to `heap_add`**: a loose block and its free neighbours are one loose
block. -/
theorem coalesce_join {xs l r ys : List Block} {s : ℕ}
    (hr : Rep h (xs ++ (l ++ ⟨s, .loose⟩ :: r) ++ ys) L) (hl : LeftFree xs l)
    (hrr : RightFree r ys) :
    ∃ m', Logged.coalesce h (420 + total Block.size (xs ++ l) + 12) = (do
        let h ← Logged.heapAdd { h with mem := m' } (420 + total Block.size xs + 12)
        pure (h, 420 + total Block.size xs + 12)) ∧
      Rep { h with mem := m' }
        (xs ++ ⟨total Block.size l + s + total Block.size r, .loose⟩ :: ys)
        (joinedLists L xs l r s) ∧
      PayloadEq (xs ++ (l ++ ⟨s, .loose⟩ :: r) ++ ys) h.mem m' := by
  obtain ⟨T, hT⟩ : ∃ T, T = total Block.size l + s + total Block.size r := ⟨_, rfl⟩
  have hTmid : total Block.size (l ++ ⟨s, .loose⟩ :: r) = T := by
    rw [hT]
    simp [Nat.add_assoc]
  have hbrk := hr.brk
  have hsmall := hr.small
  have hval := maxHeap_eq
  rw [total_append, total_append, hTmid] at hbrk
  have hTlt : T < 2 ^ 32 := by omega
  have hTmod : T % 8 = 0 := hTmid ▸ hr.total_mod
  have hmid := not_alloc_of_joined (s := s) hl hrr
  have hr0 : Rep h ((xs ++ l) ++ (⟨s, .loose⟩ :: (r ++ ys))) L := by
    simpa [List.append_assoc] using hr
  have hb := hr0.block_bounds (mem_placed_split Block.size 420 (xs ++ l) ⟨s, .loose⟩ (r ++ ys))
  simp only at hb
  obtain ⟨hpre, hprev, hnxt, hnext, hsize⟩ := hr0.coalesce_reads
  -- absorb the left neighbour, then the right one
  obtain ⟨m₁, hm₁, hr₁, hpay₁⟩ := hr0.coalescePrev_spec s hl (by omega)
  rw [List.append_cons, ← List.append_assoc] at hr₁
  have hpos₁ : 420 + total Block.size (xs ++ loosen l ++ [⟨s, .loose⟩]) + 12 =
      420 + total Block.size (xs ++ l ++ [⟨s, .loose⟩]) + 12 := by simp
  obtain ⟨m₂, hm₂, hr₂, hpay₂⟩ := hr₁.coalesceNext_spec (s + total Block.size l) hrr
    (by omega)
  rw [hpos₁] at hm₂
  have hsum : s + total Block.size l + total Block.size r = T := by omega
  rw [hsum] at hm₂
  -- retag the joined block
  rw [show xs ++ loosen l ++ [⟨s, .loose⟩] ++ loosen r ++ ys =
    xs ++ (loosen l ++ ⟨s, .loose⟩ :: loosen r) ++ ys by simp] at hr₂
  have hmid₂ : ∀ b ∈ loosen l ++ ⟨s, .loose⟩ :: loosen r, b.tag = .loose := by
    intro b hb
    rcases List.mem_append.mp hb with hb | hb
    · exact tag_of_mem_loosen hb
    · rcases List.mem_cons.mp hb with rfl | hb
      · rfl
      · exact tag_of_mem_loosen hb
  have hTmid₂ : total Block.size (loosen l ++ ⟨s, .loose⟩ :: loosen r) = T := by
    rw [hT]
    simp [Nat.add_assoc]
  have hTmin : 16 ≤ (Block.mk T .loose).size := by simp only; omega
  have hputs := put_tags (h := { h with mem := m₂ }) (p := 420 + total Block.size xs)
    (b := ⟨T, .loose⟩) hTmod hTlt
  have hout := eqOutside_writeTags m₂ (p := 420 + total Block.size xs) hTmin
  have hr₃ := hr₂.retag_one (b := ⟨T, .loose⟩) (fun b hb => by rw [hmid₂ b hb]; simp) (by simp)
    hTmid₂.symm hTmin
  rw [List.append_assoc, List.singleton_append] at hr₃
  refine ⟨writeTags m₂ (420 + total Block.size xs) ⟨T, .loose⟩, ?_, ?_, ?_⟩
  · rw [Logged.coalesce]
    simp only [hpre, hprev, hnxt, hnext, hsize, hm₁, hm₂, require_some, Prog.pure_bind]
    simp only [Tag.bit] at hputs
    rw [hputs]
  · have hlists : (fun i => ((L i).diff (pointers (420 + total Block.size xs) l)).diff
          (pointers (420 + total Block.size (xs ++ loosen l ++ [⟨s, .loose⟩])) r)) =
        joinedLists L xs l r s := by
      funext i
      rw [joinedLists]
      simp [Nat.add_assoc]
    rw [← hT, ← hlists]
    exact hr₃
  · have hform : ∀ mid' : List Block, total Block.size mid' = T →
        AllocSub (xs ++ (l ++ ⟨s, .loose⟩ :: r) ++ ys) (xs ++ mid' ++ ys) :=
      fun mid' hm => allocSub_of_mid hmid (by rw [hm, hTmid])
    have hpay₁' : PayloadEq (xs ++ (l ++ ⟨s, .loose⟩ :: r) ++ ys) h.mem m₁ := by
      simpa [List.append_assoc] using hpay₁
    have hpay₂' : PayloadEq (xs ++ (loosen l ++ ⟨s, .loose⟩ :: r) ++ ys) m₁ m₂ := by
      simpa [List.append_assoc] using hpay₂
    have hpay₃ : PayloadEq (xs ++ (loosen l ++ ⟨s, .loose⟩ :: loosen r) ++ ys) m₂
        (writeTags m₂ (420 + total Block.size xs) ⟨T, .loose⟩) :=
      payloadEq_of_eqOutside (fun b hb => by rw [hmid₂ b hb]; simp) (by rw [hTmid₂]; exact hout)
    refine (hpay₁'.trans (hform _ ?_) hpay₂').trans (hform _ hTmid₂) hpay₃
    rw [hT]
    simp [Nat.add_assoc]

/-- **`coalesce`** joins a loose block with its free neighbours into one free
block. -/
theorem coalesce_spec {xs l r ys : List Block} {s : ℕ}
    (hr : Rep h (xs ++ (l ++ ⟨s, .loose⟩ :: r) ++ ys) L) (hl : LeftFree xs l)
    (hrr : RightFree r ys) (hfit : total Block.size l + s + total Block.size r ≤ 2 ^ 24) :
    ∃ m', Logged.coalesce h (420 + total Block.size (xs ++ l) + 12) =
        ⟨[.add (420 + total Block.size xs + 12) (total Block.size l + s + total Block.size r)],
          .ok ({ h with mem := m' }, 420 + total Block.size xs + 12)⟩ ∧
      Rep { h with mem := m' }
        (xs ++ ⟨total Block.size l + s + total Block.size r, .free⟩ :: ys)
        (coalescedLists L xs l r s) ∧
      PayloadEq (xs ++ (l ++ ⟨s, .loose⟩ :: r) ++ ys) h.mem m' := by
  obtain ⟨m₁, hm₁, hr₁, hpay₁⟩ := hr.coalesce_join hl hrr
  obtain ⟨m₂, hm₂, hr₂, hpay₂⟩ := hr₁.heapAdd_spec rfl hfit
  refine ⟨m₂, ?_, hr₂, ?_⟩
  · rw [hm₁, hr₁.logged_heapAdd rfl, hm₂]
    rfl
  · refine hpay₁.trans ?_ hpay₂
    rw [List.append_cons xs ⟨total Block.size l + s + total Block.size r, .loose⟩ ys]
    exact allocSub_of_mid (not_alloc_of_joined hl hrr) (by simp [Nat.add_assoc])

/-- **`coalesce` of more than `2 ^ 24` bytes** does not return: there is no list for the
joined block. -/
theorem coalesce_over {xs l r ys : List Block} {s : ℕ}
    (hr : Rep h (xs ++ (l ++ ⟨s, .loose⟩ :: r) ++ ys) L) (hl : LeftFree xs l)
    (hrr : RightFree r ys) (hbig : 2 ^ 24 < total Block.size l + s + total Block.size r) :
    Logged.coalesce h (420 + total Block.size (xs ++ l) + 12) =
      ⟨[.add (420 + total Block.size xs + 12) (total Block.size l + s + total Block.size r)],
        .error ()⟩ := by
  obtain ⟨m₁, hm₁, hr₁, -⟩ := hr.coalesce_join hl hrr
  rw [hm₁, hr₁.logged_heapAdd rfl, hr₁.heapAdd_none rfl hbig]
  rfl

end Rep

end Malloc
