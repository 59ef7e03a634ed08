/-
# What a call does to the break and to the free lists on the way

The functions of `mm.c` once more, with a record of the calls of `mem_sbrk` and
`heap_add` that they make.  `Logged.mmMalloc` and the others are the functions of
`Mm.lean` with these two replaced by versions that leave an event; forgetting the
events gives the functions back (`Logged.erases_mmMalloc` and its siblings).

Two facts about the events hold of any heap, whatever it contains: a call that returns has
made no `heap_add` past the end of `heap[]` (`clean_run` in `SizeLimits.lean`), and the
break changes only in `mem_sbrk` (`traced_call` in `HeapBreak.lean`).
-/
import CsappLabs.Mm
import CsappLabs.Effects

open Effects Prog

namespace Malloc

/-- A call of `mem_sbrk(incr)`, with the break before it, what it returned, and the break
after it; or a call of `heap_add` for the block at `bp` of this size. -/
inductive HeapEvent : Type where
  | sbrk (brk : ℕ) (incr : ℤ) (ret after : ℕ) : HeapEvent
  | add (bp size : ℕ) : HeapEvent
  deriving DecidableEq, Repr

/-- A computation that leaves such events. -/
abbrev Logged := Prog HeapEvent Unit

namespace Logged

/-! ## The functions of `mm.c` with a record -/

/-- `mem_sbrk`. -/
def memSbrk (h : Heap) (incr : ℤ) : Logged (Heap × ℕ) := do
  let r := Malloc.memSbrk h incr
  emit (.sbrk h.memBrk incr r.2 r.1.memBrk)
  pure r

/-- `heap_add`. -/
def heapAdd (h : Heap) (bp : ℕ) : Logged Heap := do
  emit (.add bp (getSize h (hdrp bp)))
  require () (Malloc.heapAdd h bp)

/-- The loop of `mm_init`. -/
def mmInitLoop : ℕ → Heap → Logged (Heap × ℤ)
  | 0, h => pure (h, 0)
  | k + 1, h => do
      let i := N - (k + 1)
      let (h, tmp) ← memSbrk h (4 * WSIZE)
      if tmp = minusOne then pure (h, -1)
      else
        let tmp := tmp - WSIZE
        let h := put h tmp (pack (4 * WSIZE) 1)
        let h := put h (tmp + WSIZE) 0
        let h := put h (tmp + DSIZE) 0
        let h := put h (tmp + 3 * WSIZE) (pack (4 * WSIZE) 1)
        let h := { h with heap := h.heap.setIfInBounds i (tmp + DSIZE + WSIZE) }
        let h := put h (tmp + 4 * WSIZE) (pack 0 1)
        mmInitLoop k h

/-- `mm_init`. -/
def mmInit (h : Heap) : Logged (Heap × ℤ) := do
  let (h, p) ← memSbrk h (6 * WSIZE)
  let h := { h with heapStart := p }
  if h.heapStart = minusOne then pure (h, -1)
  else
    let h := put h h.heapStart 0
    let h := put h (h.heapStart + 1 * WSIZE) (pack (4 * WSIZE) 1)
    let h := put h (h.heapStart + 4 * WSIZE) (pack (4 * WSIZE) 1)
    let h := put h (h.heapStart + 5 * WSIZE) (pack 0 1)
    mmInitLoop N h

/-- `coalesce`. -/
def coalesce (h : Heap) (bp : ℕ) : Logged (Heap × ℕ) := do
  let pre := prevBlkp h bp
  let nxt := nextBlkp h bp
  let prevAlloc := getAlloc h (ftrp h pre)
  let nextAlloc := getAlloc h (hdrp nxt)
  let size := getSize h (hdrp bp)
  let (h, bp, size) ← require () (coalescePrev h prevAlloc pre bp size)
  let (h, size) ← require () (coalesceNext h nextAlloc nxt size)
  let h := put h (hdrp bp) (pack size 0)
  let h := put h (ftrp h bp) (pack size 0)
  let h ← heapAdd h bp
  pure (h, bp)

/-- `extend_heap`. -/
def extendHeap (h : Heap) (words : ℕ) : Logged (Heap × ℕ) := do
  let size := if words % 2 ≠ 0 then u32 (u32 (words + 1) * WSIZE) else u32 (words * WSIZE)
  let (h, bp) ← memSbrk h (toInt size)
  if bp = minusOne then pure (h, 0)
  else
    let bp := bp + DSIZE
    let h := put h (hdrp bp) (pack size 0)
    let h := put h (ftrp h bp) (pack size 0)
    let h := put h (hdrp (nextBlkp h bp)) (pack 0 1)
    coalesce h bp

/-- `place`. -/
def place (h : Heap) (bp asize : ℕ) : Logged (Heap × ℕ) := do
  let size := getSize h (hdrp bp)
  let h ← require () (heapRemove h bp)
  let rest := u32 (size + 2 ^ 32 - asize)
  let allocSize := if rest ≥ 4 * WSIZE then asize else size
  let h := put h (hdrp bp) (pack allocSize 1)
  let h := put h (ftrp h bp) (pack allocSize 1)
  if rest ≥ 4 * WSIZE then
    let p := nextBlkp h bp
    let h := put h (hdrp p) (pack rest 0)
    let h := put h (ftrp h p) (pack rest 0)
    let (h, _) ← coalesce h p
    pure (h, bp - DSIZE)
  else pure (h, bp - DSIZE)

/-- `mm_malloc`. -/
def mmMalloc (h : Heap) (size : ℕ) : Logged (Heap × ℕ) :=
  if size = 0 then pure (h, 0)
  else do
    let asize := adjustSize size
    let bp ← require () (findFit h asize)
    if bp ≠ 0 then place h bp asize
    else
      let extendsize := asize
      let (h, bp) ← extendHeap h (extendsize / WSIZE)
      if bp = 0 then pure (h, 0)
      else place h bp asize

/-- `mm_free`. -/
def mmFree (h : Heap) (ptr : ℕ) : Logged Heap := do
  let ptr := ptr + DSIZE
  let size := getSize h (hdrp ptr)
  let h := put h (hdrp ptr) (pack size 0)
  let h := put h (ftrp h ptr) (pack size 0)
  let (h, _) ← coalesce h ptr
  pure h

/-- The last lines of `mm_realloc`. -/
def reallocMove (h : Heap) (ptr size oldSize : ℕ) : Logged (Heap × ℕ) := do
  let (h, newptr) ← mmMalloc h size
  if newptr = 0 then pure (h, 0)
  else
    let h := memcpy h newptr ptr oldSize
    let h ← mmFree h ptr
    pure (h, newptr)

/-- The branch of `mm_realloc` for the last block. -/
def reallocGrow (h : Heap) (ptr d : ℕ) : Logged (Heap × ℕ) := do
  let (h, p) ← memSbrk h (toInt (align d))
  if p = minusOne then pure (h, 0)
  else
    let newSize := u32 (getSize h (hdrp (ptr + DSIZE)) + align d)
    let h := put h (hdrp (ptr + DSIZE)) (pack newSize 1)
    let h := put h (ftrp h (ptr + DSIZE)) (pack newSize 1)
    let h := put h (ftrp h (ptr + DSIZE) + WSIZE) (pack 0 1)
    pure (h, ptr)

/-- `mm_realloc`. -/
def mmRealloc (h : Heap) (ptr size : ℕ) : Logged (Heap × ℕ) :=
  if ptr = 0 then mmMalloc h size
  else if size = 0 then do
    let h ← mmFree h ptr
    pure (h, 0)
  else
    let oldSize := u32 (getSize h (hdrp (ptr + DSIZE)) + 2 ^ 32 - DSIZE)
    if size ≤ oldSize then pure (h, ptr)
    else
      let nxtBlock := nextBlkp h (ptr + DSIZE)
      let nxtHeader := hdrp nxtBlock
      if getSize h nxtHeader = 0 then reallocGrow h ptr (u32 (size + 2 ^ 32 - oldSize))
      else if getAlloc h nxtHeader = 0 ∧ u32 (getSize h nxtHeader + oldSize) ≥ size then
        require () (reallocAbsorb h ptr nxtBlock)
      else reallocMove h ptr size oldSize

/-! ## Forgetting the events -/

theorem erases_memSbrk (h : Heap) (incr : ℤ) :
    Erases (memSbrk h incr) (some (Malloc.memSbrk h incr)) :=
  Erases.emit_bind _ (Erases.pure _)

theorem erases_heapAdd (h : Heap) (bp : ℕ) : Erases (heapAdd h bp) (Malloc.heapAdd h bp) :=
  Erases.emit_bind _ (Erases.require _ _)

/-- The loop of `mm_init`. -/
theorem erases_mmInitLoop (k : ℕ) (h : Heap) :
    Erases (mmInitLoop k h) (some (Malloc.mmInitLoop k h)) := by
  induction k generalizing h with
  | zero => exact Erases.pure _
  | succ k ih =>
      unfold mmInitLoop Malloc.mmInitLoop
      refine (erases_memSbrk h _).bind_some ?_
      dsimp only
      split_ifs
      · exact Erases.pure _
      · exact ih _

theorem erases_mmInit (h : Heap) : Erases (mmInit h) (some (Malloc.mmInit h)) := by
  unfold mmInit Malloc.mmInit
  refine (erases_memSbrk h _).bind_some ?_
  dsimp only
  split_ifs
  · exact Erases.pure _
  · exact erases_mmInitLoop N _

theorem erases_coalesce (h : Heap) (bp : ℕ) : Erases (coalesce h bp) (Malloc.coalesce h bp) := by
  unfold coalesce Malloc.coalesce
  exact (Erases.require _ _).bind fun _ => (Erases.require _ _).bind fun _ =>
    (erases_heapAdd _ _).bind fun _ => Erases.pure _

theorem erases_extendHeap (h : Heap) (words : ℕ) :
    Erases (extendHeap h words) (Malloc.extendHeap h words) := by
  unfold extendHeap Malloc.extendHeap
  exact (erases_memSbrk _ _).bind fun _ => (Erases.pure _).ite (erases_coalesce _ _)

theorem erases_place (h : Heap) (bp asize : ℕ) :
    Erases (place h bp asize) (Malloc.place h bp asize) := by
  unfold place Malloc.place
  exact (Erases.require _ _).bind fun _ =>
    ((erases_coalesce _ _).bind fun _ => Erases.pure _).ite (Erases.pure _)

theorem erases_mmMalloc (h : Heap) (size : ℕ) :
    Erases (mmMalloc h size) (Malloc.mmMalloc h size) := by
  unfold mmMalloc Malloc.mmMalloc
  refine (Erases.pure _).ite ((Erases.require _ _).bind fun _ => (erases_place _ _ _).ite ?_)
  exact (erases_extendHeap _ _).bind fun _ => (Erases.pure _).ite (erases_place _ _ _)

theorem erases_mmFree (h : Heap) (ptr : ℕ) : Erases (mmFree h ptr) (Malloc.mmFree h ptr) := by
  unfold mmFree Malloc.mmFree
  exact (erases_coalesce _ _).bind fun _ => Erases.pure _

theorem erases_reallocMove (h : Heap) (ptr size oldSize : ℕ) :
    Erases (reallocMove h ptr size oldSize) (Malloc.reallocMove h ptr size oldSize) := by
  unfold reallocMove Malloc.reallocMove
  exact (erases_mmMalloc _ _).bind fun _ =>
    (Erases.pure _).ite ((erases_mmFree _ _).bind fun _ => Erases.pure _)

theorem erases_reallocGrow (h : Heap) (ptr d : ℕ) :
    Erases (reallocGrow h ptr d) (Malloc.reallocGrow h ptr d) := by
  unfold reallocGrow Malloc.reallocGrow
  exact (erases_memSbrk _ _).bind fun _ => (Erases.pure _).ite (Erases.pure _)

theorem erases_mmRealloc (h : Heap) (ptr size : ℕ) :
    Erases (mmRealloc h ptr size) (Malloc.mmRealloc h ptr size) := by
  unfold mmRealloc Malloc.mmRealloc
  refine (erases_mmMalloc h size).ite
    (((erases_mmFree h ptr).bind fun _ => Erases.pure _).ite ((Erases.pure _).ite ?_))
  exact (erases_reallocGrow _ _ _).ite ((Erases.require _ _).ite (erases_reallocMove _ _ _ _))

end Logged

end Malloc
