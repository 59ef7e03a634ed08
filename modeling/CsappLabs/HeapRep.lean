/-
# The heap as a list of blocks and 25 lists of free blocks

What the words of the heap stand for.  A block at address `p` occupies
`[p, p + size)`; its header is the word at `p`, its footer the last word, and
the pointer `bp` of `mm.c` is `p + 12`.  A block is allocated, free (and then on
a free list), or `loose`: marked free but on no list.  Only the inside of a
call sees loose blocks, between `heap_remove` and `heap_add`.

A free block has at most `2 ^ 24` bytes: a larger one belongs to no list, and a call that
makes one does not return.  Other blocks may be larger, in a heap of up to `MAX_HEAP` bytes.

With addresses taken as offsets from `mem_start_brk`, the prologue and the 25
sentinel blocks of `mm_init` occupy `[4, 420)`, the list head `heap[i]` is
`headOf i`, and the client's blocks start at `420`.

`Rep h bs L` is the representation invariant: the words of `h` stand for the
blocks `bs` after the sentinels and for the free lists `L`.  The frame lemmas
say which stores keep it: `Rep.retag` for stores that rewrite blocks on no list
in place, `Rep.regrow` for stores at the end of the heap.
-/
import CsappLabs.SizeClass
import CsappLabs.Layout

open WordMemory LinkedChain Layout

namespace Malloc

/-! ## Blocks -/

/-- What a block is used for. -/
inductive Tag : Type where
  | alloc : Tag
  | free : Tag
  | loose : Tag
  deriving DecidableEq, Repr

/-- The allocated bit of a tag. -/
def Tag.bit : Tag → ℕ
  | .alloc => 1
  | .free => 0
  | .loose => 0

/-- A block: its size in bytes, tags included, and its use. -/
structure Block where
  size : ℕ
  tag : Tag
  deriving DecidableEq, Repr

/-- The header and footer word of a block. -/
def Block.word (b : Block) : ℕ := b.size + b.tag.bit

/-- The words of the block `b` at `p`: an aligned size, a header and an equal
footer. -/
structure Tagged (m : Mem) (p : ℕ) (b : Block) : Prop where
  dvd : b.size % 8 = 0
  min : 16 ≤ b.size
  header : read32 m p = b.word
  footer : read32 m (p + b.size - 4) = b.word

/-- The prologue block and the 25 sentinel blocks. -/
def sentinels : List Block := List.replicate (N + 1) ⟨16, .alloc⟩

theorem total_sentinels : total Block.size sentinels = 416 := by decide

/-- `heap[i]`, the block pointer of the `i`-th sentinel. -/
def headOf (i : ℕ) : ℕ := 32 + 16 * i

/-- The word of the `SUCC` field of the node `x`. -/
def nxtOf (m : Mem) (x : ℕ) : ℕ := read32 m (x - 4)

/-- The word of the `PRED` field of the node `x`. -/
def prvOf (m : Mem) (x : ℕ) : ℕ := read32 m (x - 8)

/-- The free list with head `head` and nodes `l`: linked in both directions, and
ended by the null pointer. -/
def FreeList (m : Mem) (head : ℕ) (l : List ℕ) : Prop :=
  Linked (nxtOf m) (prvOf m) (· ≠ 0) (head :: l ++ [0])

/-- **The representation invariant.** -/
structure Rep (h : Heap) (bs : List Block) (L : ℕ → List ℕ) : Prop where
  startBrk : h.memStartBrk = 0
  maxAddr : h.memMaxAddr = MAX_HEAP
  brk : h.memBrk = 424 + total Block.size bs
  small : h.memBrk ≤ MAX_HEAP
  classes : ∀ p s, (p, ⟨s, .free⟩) ∈ placed Block.size 420 bs → s ≤ 2 ^ 24
  heads : ∀ i < 25, h.heap[i]? = some (headOf i)
  sentinel : ∀ p b, (p, b) ∈ placed Block.size 4 sentinels → Tagged h.mem p b
  tagged : ∀ p b, (p, b) ∈ placed Block.size 420 bs → Tagged h.mem p b
  epilogue : read32 h.mem (420 + total Block.size bs) = 1
  chain : ∀ i < 25, FreeList h.mem (headOf i) (L i)
  nodup : ∀ i, (L i).Nodup
  nodes : ∀ i n, n ∈ L i ↔
    ∃ p s, (p, ⟨s, .free⟩) ∈ placed Block.size 420 bs ∧ n = p + 12 ∧ Nat.clog 2 s = i

/-- The bytes inside allocated blocks are kept. -/
def PayloadEq (bs : List Block) (m m' : Mem) : Prop :=
  ∀ p s, (p, ⟨s, .alloc⟩) ∈ placed Block.size 420 bs →
    ∀ x, p + 4 ≤ x → x < p + s - 4 → m' x = m x

/-! ## Words -/

theorem hdrp_eq (bp : ℕ) : hdrp bp = bp - 12 := Nat.sub_sub bp 8 4

/-- The header of a block is its first word. -/
theorem hdrp_add (p : ℕ) : hdrp (p + 12) = p := by rw [hdrp_eq, Nat.add_sub_cancel]

theorem pred_eq (bp : ℕ) : pred bp = bp - 8 := rfl

theorem succ_eq (bp : ℕ) : succ bp = bp - 4 := rfl

theorem mask_eq {w : ℕ} (hw : w < 2 ^ 32) : w &&& sizeMask = w - w % 8 := by
  have hmask : sizeMask = (2 ^ 29 - 1) <<< 3 := by decide
  have hval : w - w % 8 = (w >>> 3) <<< 3 := by
    rw [Nat.shiftRight_eq_div_pow, Nat.shiftLeft_eq]
    omega
  rw [hmask, hval]
  apply Nat.eq_of_testBit_eq
  intro i
  simp only [Nat.testBit_and, Nat.testBit_shiftLeft, Nat.testBit_two_pow_sub_one,
    Nat.testBit_shiftRight]
  by_cases hi : i ≥ 3
  · by_cases hi' : i - 3 < 29
    · simp [hi, hi', Nat.add_sub_cancel' hi]
    · have hbig : w.testBit i = false :=
        Nat.testBit_lt_two_pow (lt_of_lt_of_le hw (Nat.pow_le_pow_right (by norm_num) (by omega)))
      simp [hi, Nat.add_sub_cancel' hi, hbig]
  · simp [hi]

theorem pack_eq {s b : ℕ} (hs : s % 8 = 0) (hb : b ≤ 1) : pack s b = s + b := by
  obtain ⟨k, rfl⟩ : ∃ k, s = 2 ^ 3 * k := ⟨s / 8, by omega⟩
  rw [pack, Nat.two_pow_add_eq_or_of_lt (by omega)]

theorem Tag.bit_le (t : Tag) : t.bit ≤ 1 := by cases t <;> decide

/-- Reading the size out of a header or footer word. -/
theorem getSize_eq {h : Heap} {a : ℕ} {b : Block} (hr : read32 h.mem a = b.word)
    (hd : b.size % 8 = 0) : getSize h a = b.size := by
  have hlt := read32_lt h.mem a
  have hbit := b.tag.bit_le
  rw [getSize, get, mask_eq hlt, hr, Block.word]
  omega

/-- Reading the allocated bit out of a header or footer word. -/
theorem getAlloc_eq {h : Heap} {a : ℕ} {b : Block} (hr : read32 h.mem a = b.word)
    (hd : b.size % 8 = 0) : getAlloc h a = b.tag.bit := by
  have hbit := b.tag.bit_le
  rw [getAlloc, get, hr, Nat.and_one_is_mod, Block.word]
  omega

/-- `FTRP` of a block, through its header. -/
theorem ftrp_of_header {h : Heap} {p : ℕ} {b : Block} (hr : read32 h.mem p = b.word)
    (hd : b.size % 8 = 0) : ftrp h (p + 12) = p + b.size - 4 := by
  rw [ftrp, hdrp_add, getSize_eq hr hd]
  change p + 12 + b.size - 8 - 8 = _
  omega

/-- `NEXT_BLKP` of a block, through its header. -/
theorem nextBlkp_of_header {h : Heap} {p : ℕ} {b : Block} (hr : read32 h.mem p = b.word)
    (hd : b.size % 8 = 0) : nextBlkp h (p + 12) = p + b.size + 12 := by
  rw [nextBlkp]
  change p + 12 + getSize h p = _
  rw [getSize_eq hr hd]
  omega

/-- A block keeps its words when its first and last four bytes are kept. -/
theorem Tagged.congr {m m' : Mem} {p : ℕ} {b : Block} (h : Tagged m p b)
    (hh : read32 m' p = read32 m p)
    (hf : read32 m' (p + b.size - 4) = read32 m (p + b.size - 4)) : Tagged m' p b :=
  ⟨h.dvd, h.min, hh.trans h.header, hf.trans h.footer⟩

/-! ## Addresses -/

theorem aligned_of_mem {m : Mem} {a p : ℕ} {b : Block} {bs : List Block}
    (ht : ∀ p b, (p, b) ∈ placed Block.size a bs → Tagged m p b)
    (hp : (p, b) ∈ placed Block.size a bs) : p % 8 = a % 8 := by
  induction bs generalizing a with
  | nil => simp at hp
  | cons c bs ih =>
      rw [placed_cons, List.mem_cons] at hp
      rcases hp with hp | hp
      · rw [(Prod.mk.inj hp).1]
      · have hc := (ht a c (by simp)).dvd
        have := ih (fun q d hq => ht q d (by rw [placed_cons]; exact List.mem_cons_of_mem _ hq)) hp
        omega

theorem maxHeap_eq : MAX_HEAP = 20971520 := by norm_num [MAX_HEAP]

/-- The size class of a block of at most `2 ^ 24` bytes is a list index. -/
theorem class_lt {s : ℕ} (hs : s ≤ 2 ^ 24) : Nat.clog 2 s < 25 :=
  Nat.lt_succ_of_le (Nat.clog_le_of_le_pow hs)

/-- A block over `2 ^ 24` bytes has no list. -/
theorem le_class {s : ℕ} (hs : 2 ^ 24 < s) : 25 ≤ Nat.clog 2 s :=
  (Nat.lt_clog_iff_pow_lt (by norm_num)).mpr hs

namespace Rep

variable {h h' : Heap} {bs : List Block} {L : ℕ → List ℕ}

/-- Where a client block lies. -/
theorem block_bounds (hr : Rep h bs L) {p : ℕ} {b : Block}
    (hp : (p, b) ∈ placed Block.size 420 bs) :
    420 ≤ p ∧ p % 8 = 4 ∧ 16 ≤ b.size ∧ b.size % 8 = 0 ∧ p + b.size + 4 ≤ h.memBrk := by
  have hb := mem_placed_bounds hp
  have hal := aligned_of_mem hr.tagged hp
  have ht := hr.tagged _ _ hp
  have hbrk := hr.brk
  exact ⟨hb.1, hal, ht.min, ht.dvd, by omega⟩

/-- Where a node of a free list lies. -/
theorem node_bounds (hr : Rep h bs L) {i n : ℕ} (hn : n ∈ L i) :
    432 ≤ n ∧ n % 8 = 0 ∧ n + 8 ≤ h.memBrk := by
  obtain ⟨p, s, hp, rfl, -⟩ := (hr.nodes i n).mp hn
  have := hr.block_bounds hp
  simp only at this
  omega

theorem index_lt (hr : Rep h bs L) {i n : ℕ} (hn : n ∈ L i) : i < 25 := by
  obtain ⟨p, s, hp, -, rfl⟩ := (hr.nodes i n).mp hn
  exact class_lt (hr.classes p s hp)

/-- A node is on one list only. -/
theorem index_unique (hr : Rep h bs L) {i j n : ℕ} (hi : n ∈ L i) (hj : n ∈ L j) : i = j := by
  obtain ⟨p, s, hp, hn, hs⟩ := (hr.nodes i n).mp hi
  obtain ⟨q, t, hq, hn', ht⟩ := (hr.nodes j n).mp hj
  obtain rfl : p = q := by omega
  have h1 := hr.block_bounds hp
  have h2 := hr.block_bounds hq
  have heq := placed_unique (by omega) (by omega) hp hq
  obtain rfl : s = t := by simpa using heq
  exact hs.symm.trans ht

/-! ## Frame lemmas -/

/-- The invariant moves to another heap that has the same variables, the same
bytes below the client's blocks, the same free blocks and the same link words. -/
theorem transfer {bs' : List Block} (hr : Rep h bs L)
    (hstart : h'.memStartBrk = h.memStartBrk) (hmax : h'.memMaxAddr = h.memMaxAddr)
    (hheap : h'.heap = h.heap)
    (hbrk : h'.memBrk = 424 + total Block.size bs') (hsmall : h'.memBrk ≤ MAX_HEAP)
    (hlow : ∀ x < 420, h'.mem x = h.mem x)
    (htag : ∀ p b, (p, b) ∈ placed Block.size 420 bs' → Tagged h'.mem p b)
    (hepi : read32 h'.mem (420 + total Block.size bs') = 1)
    (hfree : ∀ p s, (p, ⟨s, .free⟩) ∈ placed Block.size 420 bs' ↔
      (p, ⟨s, .free⟩) ∈ placed Block.size 420 bs)
    (hlink : ∀ p s, (p, ⟨s, .free⟩) ∈ placed Block.size 420 bs →
      ∀ x, p + 4 ≤ x → x < p + 12 → h'.mem x = h.mem x) : Rep h' bs' L where
  startBrk := hstart.trans hr.startBrk
  maxAddr := hmax.trans hr.maxAddr
  brk := hbrk
  small := hsmall
  classes p s hp := hr.classes p s ((hfree p s).mp hp)
  heads i hi := by rw [hheap]; exact hr.heads i hi
  sentinel p b hp := by
    have hb := mem_placed_bounds hp
    have ht := hr.sentinel p b hp
    have hmin := ht.min
    have hroom := total_sentinels
    refine ht.congr (read32_congr fun x _ _ => hlow x ?_) (read32_congr fun x _ _ => hlow x ?_) <;>
      omega
  tagged := htag
  epilogue := hepi
  nodup := hr.nodup
  nodes i n := by
    rw [hr.nodes i n]
    simp only [hfree]
  chain i hi := by
    -- the link words are below the client's blocks, or in a block that is still free
    have hnode : ∀ x ∈ L i, ∀ y, x - 8 ≤ y → y < x → h'.mem y = h.mem y := by
      intro x hx y hy hy'
      obtain ⟨p, s, hp, rfl, -⟩ := (hr.nodes i x).mp hx
      exact hlink p s hp y (by omega) (by omega)
    have hhead : ∀ y, headOf i - 8 ≤ y → y < headOf i → h'.mem y = h.mem y := by
      intro y _ hy
      refine hlow y ?_
      have : headOf i = 32 + 16 * i := rfl
      omega
    refine (hr.chain i hi).congr (fun x hx => ?_) (fun y hy hy0 => ?_)
    · rw [List.dropLast_concat, List.mem_cons] at hx
      have h4 : 4 ≤ x := by
        rcases hx with rfl | hx
        · unfold headOf; omega
        · have := hr.node_bounds hx; omega
      refine read32_congr fun z _ _ => ?_
      rcases hx with rfl | hx
      · exact hhead z (by omega) (by omega)
      · exact hnode x hx z (by omega) (by omega)
    · rw [List.cons_append, List.tail_cons, List.mem_append, List.mem_singleton] at hy
      rcases hy with hy | hy
      · have := hr.node_bounds hy
        exact read32_congr fun z _ _ => hnode y hy z (by omega) (by omega)
      · exact absurd hy hy0

/-- **Rewriting in place.**  Blocks `mid` that are on no list may be replaced by
blocks `mid'` on no list that take the same room, by stores into that room. -/
theorem retag {xs mid ys : List Block} (mid' : List Block) (m' : Mem)
    (hr : Rep h (xs ++ mid ++ ys) L)
    (hmid : ∀ b ∈ mid, b.tag ≠ .free) (hmid' : ∀ b ∈ mid', b.tag ≠ .free)
    (hroom : total Block.size mid' = total Block.size mid)
    (hout : EqOutside h.mem m' (420 + total Block.size xs)
      (420 + total Block.size xs + total Block.size mid))
    (htag : ∀ p b, (p, b) ∈ placed Block.size (420 + total Block.size xs) mid' → Tagged m' p b) :
    Rep { h with mem := m' } (xs ++ mid' ++ ys) L := by
  have hsame : total Block.size (xs ++ mid' ++ ys) = total Block.size (xs ++ mid ++ ys) := by
    simp only [total_append]; omega
  have hbrk := hr.brk
  have hrooms : total Block.size (xs ++ mid ++ ys)
      = total Block.size xs + total Block.size mid + total Block.size ys := by
    simp [Nat.add_assoc]
  -- a block outside the rewritten room keeps all of its bytes
  have hxs : ∀ p b, (p, b) ∈ placed Block.size 420 xs →
      ∀ x, x < p + b.size → m' x = h.mem x := by
    intro p b hp x hx
    have hb := mem_placed_bounds hp
    exact hout x (by omega)
  have hys : ∀ p b,
      (p, b) ∈ placed Block.size (420 + total Block.size xs + total Block.size mid) ys →
      ∀ x, p ≤ x → m' x = h.mem x := by
    intro p b hp x hx
    have hb := mem_placed_bounds hp
    exact hout x (by omega)
  have hold := hr.tagged
  simp only [placed_append, List.mem_append, total_append, ← Nat.add_assoc] at hold
  refine hr.transfer rfl rfl rfl (by rw [hsame]; exact hr.brk) hr.small
    (fun x hx => hout x (by omega)) ?_ ?_ ?_ ?_
  · intro p b hp
    simp only [placed_append, List.mem_append, total_append, hroom, ← Nat.add_assoc] at hp
    rcases hp with (hp | hp) | hp
    · have ht := hold p b (Or.inl (Or.inl hp))
      have hmin := ht.min
      exact ht.congr (read32_congr fun x _ _ => hxs _ _ hp x (by omega))
        (read32_congr fun x _ _ => hxs _ _ hp x (by omega))
    · exact htag p b hp
    · have ht := hold p b (Or.inr hp)
      have hmin := ht.min
      exact ht.congr (read32_congr fun x _ _ => hys _ _ hp x (by omega))
        (read32_congr fun x _ _ => hys _ _ hp x (by omega))
  · rw [hsame, ← hr.epilogue]
    exact read32_congr fun x _ _ => hout x (by omega)
  · intro p s
    simp only [placed_append, List.mem_append, total_append, hroom, ← Nat.add_assoc]
    have h1 : (p, ⟨s, .free⟩) ∉ placed Block.size (420 + total Block.size xs) mid :=
      fun hc => hmid _ (mem_of_mem_placed hc) rfl
    have h2 : (p, ⟨s, .free⟩) ∉ placed Block.size (420 + total Block.size xs) mid' :=
      fun hc => hmid' _ (mem_of_mem_placed hc) rfl
    simp only [h1, h2]
  · -- a free block is to the left or to the right of the room
    intro p s hp x hx hx'
    have hmin := (hr.block_bounds hp).2.2.1
    simp only [placed_append, List.mem_append, total_append, ← Nat.add_assoc] at hp
    rcases hp with (hp | hp) | hp
    · exact hxs _ _ hp x (by simp only at hmin ⊢; omega)
    · exact absurd rfl (hmid _ (mem_of_mem_placed hp))
    · exact hys _ _ hp x (by omega)

/-- **Growing the heap.**  The blocks at the end of the heap that are on no list
may be replaced by blocks on no list that take more room, by stores from their
start on, when the break moves to the end of the new blocks and a new epilogue
is stored before it. -/
theorem regrow {xs : List Block} (mid mid' : List Block) (hr : Rep h (xs ++ mid) L)
    (hstart : h'.memStartBrk = h.memStartBrk) (hmax : h'.memMaxAddr = h.memMaxAddr)
    (hheap : h'.heap = h.heap)
    (hmid : ∀ b ∈ mid, b.tag ≠ .free) (hmid' : ∀ b ∈ mid', b.tag ≠ .free)
    (hbrk : h'.memBrk = 424 + total Block.size (xs ++ mid')) (hsmall : h'.memBrk ≤ MAX_HEAP)
    (hout : ∀ x < 420 + total Block.size xs, h'.mem x = h.mem x)
    (htag : ∀ p b, (p, b) ∈ placed Block.size (420 + total Block.size xs) mid' → Tagged h'.mem p b)
    (hepi : read32 h'.mem (420 + total Block.size (xs ++ mid')) = 1) :
    Rep h' (xs ++ mid') L := by
  -- a block before the end keeps all of its bytes
  have hxs : ∀ p b, (p, b) ∈ placed Block.size 420 xs →
      ∀ x, x < p + b.size → h'.mem x = h.mem x := by
    intro p b hp x hx
    have hb := mem_placed_bounds hp
    exact hout x (by omega)
  refine hr.transfer hstart hmax hheap hbrk hsmall (fun x hx => hout x (by omega)) ?_ hepi ?_ ?_
  · intro p b hp
    rw [placed_append, List.mem_append] at hp
    rcases hp with hp | hp
    · have ht := hr.tagged p b (by rw [placed_append]; exact List.mem_append_left _ hp)
      have hmin := ht.min
      exact ht.congr (read32_congr fun x _ _ => hxs _ _ hp x (by omega))
        (read32_congr fun x _ _ => hxs _ _ hp x (by omega))
    · exact htag p b hp
  · intro p s
    simp only [placed_append, List.mem_append]
    have h1 : (p, ⟨s, .free⟩) ∉ placed Block.size (420 + total Block.size xs) mid :=
      fun hc => hmid _ (mem_of_mem_placed hc) rfl
    have h2 : (p, ⟨s, .free⟩) ∉ placed Block.size (420 + total Block.size xs) mid' :=
      fun hc => hmid' _ (mem_of_mem_placed hc) rfl
    simp only [h1, h2]
  · intro p s hp x hx hx'
    have hmin := (hr.block_bounds hp).2.2.1
    rw [placed_append, List.mem_append] at hp
    rcases hp with hp | hp
    · exact hxs _ _ hp x (by simp only at hmin ⊢; omega)
    · exact absurd rfl (hmid _ (mem_of_mem_placed hp))

end Rep

end Malloc
