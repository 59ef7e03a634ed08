/-
# The allocator: `memlib.c` and `mm.c`

The simulated heap of `memlib.c` and the segregated-list allocator of `mm.c`,
function by function, for the `-m32` build of the Makefile: a pointer, a
`size_t` and an `unsigned int` are 32 bits wide.  A pointer is its address, a
natural number; `size_t` arithmetic is reduced modulo `2 ^ 32` by `u32`, and
`mem_sbrk` adds its increment to the break modulo `2 ^ 32` as well.

Stateful functions pass the heap explicitly.  `none` stands for a call that does
not return: a failed `assert`, an index of `heap[]` past its end, or a loop that
never ends.  The walk along a free list gets the break as its fuel: a walk of
more steps than there are heap bytes has met some node twice, and goes on
forever.

The diagnostics printed to `stderr` and `errno` are left out; nothing reads them.
-/
import CsappLabs.WordMemory
import CsappLabs.LinkedChain

open WordMemory LinkedChain

namespace Malloc

/-- `size_t` and `unsigned int` arithmetic is modulo `2 ^ 32`. -/
def u32 (n : ℕ) : ℕ := n % 2 ^ 32

/-- The conversion of a `size_t` to the `int` parameter of `mem_sbrk`. -/
def toInt (n : ℕ) : ℤ := if n < 2 ^ 31 then n else n - 2 ^ 32

/-! ## `config.h`, `memlib.c` -/

/-- `MAX_HEAP`: 20 MB. -/
def MAX_HEAP : ℕ := 20 * 2 ^ 20

/-- The number of segregated lists. -/
abbrev N : ℕ := 25

/-- The bytes of the simulated heap, the private variables of `memlib.c`, and
the static variables `heap_start` and `heap` of `mm.c`. -/
structure Heap where
  mem : Mem
  memStartBrk : ℕ
  memBrk : ℕ
  memMaxAddr : ℕ
  heapStart : ℕ
  heap : Vector ℕ N

/-- The value `(void *) -1`. -/
def minusOne : ℕ := 2 ^ 32 - 1

/-- `mem_init`, when `malloc` returned `base`, a block of the given contents. -/
def memInit (base : ℕ) (contents : Mem) : Heap where
  mem := contents
  memStartBrk := base
  memBrk := base
  memMaxAddr := base + MAX_HEAP
  heapStart := 0
  heap := Vector.replicate N 0

/-- `mem_reset_brk`: an empty heap again. -/
def memResetBrk (h : Heap) : Heap := { h with memBrk := h.memStartBrk }

/-- `mem_sbrk`: extend the heap by `incr` bytes and return the old break. -/
def memSbrk (h : Heap) (incr : ℤ) : Heap × ℕ :=
  let oldBrk := h.memBrk
  if incr < 0 ∨ u32 (h.memBrk + incr.toNat) > h.memMaxAddr then (h, minusOne)
  else ({ h with memBrk := u32 (h.memBrk + incr.toNat) }, oldBrk)

/-- `mem_heapsize`. -/
def memHeapsize (h : Heap) : ℕ := h.memBrk - h.memStartBrk

/-! ## The macros of `mm.c` -/

/-- Single word (4) and double word (8) sizes. -/
abbrev WSIZE : ℕ := 4
abbrev DSIZE : ℕ := 8
abbrev ALIGNMENT : ℕ := 8

/-- The mask `~0x7` on 32 bits. -/
abbrev sizeMask : ℕ := 0xFFFFFFF8

/-- `ALIGN`: round up to the nearest multiple of `ALIGNMENT`. -/
def align (size : ℕ) : ℕ := u32 (size + (ALIGNMENT - 1)) &&& sizeMask

/-- `PACK`: a header or footer word. -/
def pack (size alloc : ℕ) : ℕ := size ||| alloc

/-- `GET`. -/
def get (h : Heap) (p : ℕ) : ℕ := read32 h.mem p

/-- `PUT`. -/
def put (h : Heap) (p val : ℕ) : Heap := { h with mem := write32 h.mem p val }

/-- `GET_SIZE`. -/
def getSize (h : Heap) (p : ℕ) : ℕ := get h p &&& sizeMask

/-- `GET_ALLOC`. -/
def getAlloc (h : Heap) (p : ℕ) : ℕ := get h p &&& 1

/-- `HDRP`. -/
def hdrp (bp : ℕ) : ℕ := bp - DSIZE - WSIZE

/-- `PRED`. -/
def pred (bp : ℕ) : ℕ := bp - DSIZE

/-- `SUCC`. -/
def succ (bp : ℕ) : ℕ := bp - WSIZE

/-- `FTRP`. -/
def ftrp (h : Heap) (bp : ℕ) : ℕ := bp + getSize h (hdrp bp) - DSIZE - DSIZE

/-- `NEXT_BLKP`. -/
def nextBlkp (h : Heap) (bp : ℕ) : ℕ := bp + getSize h (bp - DSIZE - WSIZE)

/-- `PREV_BLKP`. -/
def prevBlkp (h : Heap) (bp : ℕ) : ℕ := bp - getSize h (bp - DSIZE - DSIZE)

/-- `MAX_SIZE`. -/
def maxSize (x : ℕ) : ℕ := 1 <<< x

/-! ## Size classes -/

/-- The scan `while (!(n >> u & 1)) u++` of `U`; a 32-bit word has no bit to
find past bit 31. -/
def uScan (n : ℕ) : ℕ → ℕ → Option ℕ
  | 0, _ => none
  | fuel + 1, u => if (n >>> u) &&& 1 ≠ 0 then some u else uScan n fuel (u + 1)

/-- `U`: the index of the list for blocks of a size. -/
def U (size : ℕ) : Option ℕ :=
  if size = 0 then none
  else
    let n := size - 1
    let n := n ||| n >>> 1
    let n := n ||| n >>> 2
    let n := n ||| n >>> 4
    let n := n ||| n >>> 8
    let n := n ||| n >>> 16
    let n := u32 (n + 1)
    uScan n 32 0

/-! ## Initialisation -/

/-- The loop of `mm_init` with `k` rounds to go: round `i` makes the sentinel
block of list `i`. -/
def mmInitLoop : ℕ → Heap → Heap × ℤ
  | 0, h => (h, 0)
  | k + 1, h =>
      let i := N - (k + 1)
      let (h, tmp) := memSbrk h (4 * WSIZE)
      if tmp = minusOne then (h, -1)
      else
        let tmp := tmp - WSIZE
        let h := put h tmp (pack (4 * WSIZE) 1)
        let h := put h (tmp + WSIZE) 0
        let h := put h (tmp + DSIZE) 0
        let h := put h (tmp + 3 * WSIZE) (pack (4 * WSIZE) 1)
        let h := { h with heap := h.heap.setIfInBounds i (tmp + DSIZE + WSIZE) }
        let h := put h (tmp + 4 * WSIZE) (pack 0 1)
        mmInitLoop k h

/-- `mm_init`. -/
def mmInit (h : Heap) : Heap × ℤ :=
  let (h, p) := memSbrk h (6 * WSIZE)
  let h := { h with heapStart := p }
  if h.heapStart = minusOne then (h, -1)
  else
    let h := put h h.heapStart 0
    let h := put h (h.heapStart + 1 * WSIZE) (pack (4 * WSIZE) 1)
    let h := put h (h.heapStart + 4 * WSIZE) (pack (4 * WSIZE) 1)
    let h := put h (h.heapStart + 5 * WSIZE) (pack 0 1)
    mmInitLoop N h

/-! ## Free lists -/

/-- The inner loop of `find_fit`, from the node after the head of one list. -/
def findInList (h : Heap) (size head : ℕ) : Option (Option ℕ) :=
  search (fun now => get h (succ now)) 0 (fun now => decide (getSize h (hdrp now) ≥ size))
    (h.memBrk + 1) (get h (succ head))

/-- The outer loop of `find_fit` with `k` lists to go. -/
def findFitLoop (h : Heap) (size : ℕ) : ℕ → Option ℕ
  | 0 => some 0
  | k + 1 => do
      let i := N - (k + 1)
      if size ≤ maxSize i then
        let head ← h.heap[i]?
        match ← findInList h size head with
        | some now => some now
        | none => findFitLoop h size k
      else findFitLoop h size k

/-- `find_fit`. -/
def findFit (h : Heap) (size : ℕ) : Option ℕ := findFitLoop h size N

/-- `heap_remove`. -/
def heapRemove (h : Heap) (bp : ℕ) : Option Heap :=
  let pre := get h (pred bp)
  let suc := get h (succ bp)
  if pre = 0 then none
  else
    let h := put h (succ pre) suc
    let h := if suc ≠ 0 then put h (pred suc) pre else h
    let h := put h (pred bp) 0
    some (put h (succ bp) 0)

/-- `heap_add`. -/
def heapAdd (h : Heap) (bp : ℕ) : Option Heap := do
  let u ← U (getSize h (hdrp bp))
  let head ← h.heap[u]?
  let nxt := get h (succ head)
  let h := put h (succ bp) nxt
  let h := if nxt ≠ 0 then put h (pred nxt) bp else h
  let h := put h (succ head) bp
  some (put h (pred bp) head)

/-! ## Coalescing, extension, placement -/

/-- The branch `if (!prev_alloc)` of `coalesce`: the new heap, `bp` and `size`. -/
def coalescePrev (h : Heap) (prevAlloc pre bp size : ℕ) : Option (Heap × ℕ × ℕ) :=
  if prevAlloc = 0 then do
    let size := u32 (size + getSize h (hdrp pre))
    let h ← heapRemove h pre
    some (h, prevBlkp h bp, size)
  else some (h, bp, size)

/-- The branch `if (!next_alloc)` of `coalesce`: the new heap and `size`. -/
def coalesceNext (h : Heap) (nextAlloc nxt size : ℕ) : Option (Heap × ℕ) :=
  if nextAlloc = 0 then do
    let size := u32 (size + getSize h (hdrp nxt))
    let h ← heapRemove h nxt
    some (h, size)
  else some (h, size)

/-- `coalesce`; the block at `bp` is on no list. -/
def coalesce (h : Heap) (bp : ℕ) : Option (Heap × ℕ) := do
  let pre := prevBlkp h bp
  let nxt := nextBlkp h bp
  let prevAlloc := getAlloc h (ftrp h pre)
  let nextAlloc := getAlloc h (hdrp nxt)
  let size := getSize h (hdrp bp)
  let (h, bp, size) ← coalescePrev h prevAlloc pre bp size
  let (h, size) ← coalesceNext h nextAlloc nxt size
  let h := put h (hdrp bp) (pack size 0)
  let h := put h (ftrp h bp) (pack size 0)
  let h ← heapAdd h bp
  some (h, bp)

/-- `extend_heap`. -/
def extendHeap (h : Heap) (words : ℕ) : Option (Heap × ℕ) :=
  let size := if words % 2 ≠ 0 then u32 (u32 (words + 1) * WSIZE) else u32 (words * WSIZE)
  let (h, bp) := memSbrk h (toInt size)
  if bp = minusOne then some (h, 0)
  else
    let bp := bp + DSIZE
    let h := put h (hdrp bp) (pack size 0)
    let h := put h (ftrp h bp) (pack size 0)
    let h := put h (hdrp (nextBlkp h bp)) (pack 0 1)
    coalesce h bp

/-- `place`. -/
def place (h : Heap) (bp asize : ℕ) : Option (Heap × ℕ) := do
  let size := getSize h (hdrp bp)
  let h ← heapRemove h bp
  let rest := u32 (size + 2 ^ 32 - asize)
  let allocSize := if rest ≥ 4 * WSIZE then asize else size
  let h := put h (hdrp bp) (pack allocSize 1)
  let h := put h (ftrp h bp) (pack allocSize 1)
  if rest ≥ 4 * WSIZE then
    let p := nextBlkp h bp
    let h := put h (hdrp p) (pack rest 0)
    let h := put h (ftrp h p) (pack rest 0)
    let (h, _) ← coalesce h p
    some (h, bp - DSIZE)
  else some (h, bp - DSIZE)

/-! ## The calls -/

/-- The rounding of a request in `mm_malloc`. -/
def adjustSize (size : ℕ) : ℕ :=
  if size ≤ DSIZE then 2 * DSIZE
  else u32 (DSIZE * (u32 (size + DSIZE + (DSIZE - 1)) / DSIZE))

/-- `mm_malloc`. -/
def mmMalloc (h : Heap) (size : ℕ) : Option (Heap × ℕ) :=
  if size = 0 then some (h, 0)
  else do
    let asize := adjustSize size
    let bp ← findFit h asize
    if bp ≠ 0 then place h bp asize
    else
      let extendsize := asize
      let (h, bp) ← extendHeap h (extendsize / WSIZE)
      if bp = 0 then some (h, 0)
      else place h bp asize

/-- `mm_free`. -/
def mmFree (h : Heap) (ptr : ℕ) : Option Heap := do
  let ptr := ptr + DSIZE
  let size := getSize h (hdrp ptr)
  let h := put h (hdrp ptr) (pack size 0)
  let h := put h (ftrp h ptr) (pack size 0)
  let (h, _) ← coalesce h ptr
  some h

/-- `memcpy` within the heap. -/
def memcpy (h : Heap) (dst src n : ℕ) : Heap := { h with mem := copyBytes h.mem dst src n }

/-- The last lines of `mm_realloc`: allocate, copy, free. -/
def reallocMove (h : Heap) (ptr size oldSize : ℕ) : Option (Heap × ℕ) := do
  let (h, newptr) ← mmMalloc h size
  if newptr = 0 then some (h, 0)
  else
    let h := memcpy h newptr ptr oldSize
    let h ← mmFree h ptr
    some (h, newptr)

/-- The branch of `mm_realloc` for the last block: move the break by `ALIGN(d)`. -/
def reallocGrow (h : Heap) (ptr d : ℕ) : Option (Heap × ℕ) :=
  let (h, p) := memSbrk h (toInt (align d))
  if p = minusOne then some (h, 0)
  else
    let newSize := u32 (getSize h (hdrp (ptr + DSIZE)) + align d)
    let h := put h (hdrp (ptr + DSIZE)) (pack newSize 1)
    let h := put h (ftrp h (ptr + DSIZE)) (pack newSize 1)
    let h := put h (ftrp h (ptr + DSIZE) + WSIZE) (pack 0 1)
    some (h, ptr)

/-- The branch of `mm_realloc` that takes the free block after the block. -/
def reallocAbsorb (h : Heap) (ptr nxtBlock : ℕ) : Option (Heap × ℕ) := do
  let h ← heapRemove h nxtBlock
  let newSize := u32 (getSize h (hdrp (ptr + DSIZE)) + getSize h (hdrp nxtBlock))
  let h := put h (hdrp (ptr + DSIZE)) (pack newSize 1)
  let h := put h (ftrp h (ptr + DSIZE)) (pack newSize 1)
  some (h, ptr)

/-- `mm_realloc`. -/
def mmRealloc (h : Heap) (ptr size : ℕ) : Option (Heap × ℕ) :=
  if ptr = 0 then mmMalloc h size
  else if size = 0 then do
    let h ← mmFree h ptr
    some (h, 0)
  else
    let oldSize := u32 (getSize h (hdrp (ptr + DSIZE)) + 2 ^ 32 - DSIZE)
    if size ≤ oldSize then some (h, ptr)
    else
      let nxtBlock := nextBlkp h (ptr + DSIZE)
      let nxtHeader := hdrp nxtBlock
      if getSize h nxtHeader = 0 then reallocGrow h ptr (u32 (size + 2 ^ 32 - oldSize))
      else if getAlloc h nxtHeader = 0 ∧ u32 (getSize h nxtHeader + oldSize) ≥ size then
        reallocAbsorb h ptr nxtBlock
      else reallocMove h ptr size oldSize

end Malloc
