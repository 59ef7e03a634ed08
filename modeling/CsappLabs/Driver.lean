/-
# The driver of the allocator

`eval_mm_valid` of `mdriver.c` runs a package (`mm_init`, `mm_malloc`, `mm_free`,
`mm_realloc`) on a trace and checks the pointers that it returns: `add_range` keeps the list
of the payloads, and looks for a payload that is not aligned, not in the heap, or overlaps
another one.  The package is a parameter here, as it is for the driver; `mdriver.c` is
linked with the one that it is to test.

A request size is one that an `int` holds.  `eval_mm_valid` returns 1 (`Except.ok`), or it
returns 0 after `malloc_error`, or it does not return.
-/
import Mathlib

namespace Driver

/-! ## The range list -/

/-- `range_t`. -/
@[ext] structure Range where
  lo : ℕ
  hi : ℕ
  deriving DecidableEq

/-- What `malloc_error` is called with. -/
inductive Complaint
  | initFailed
  | mallocFailed
  | reallocFailed
  | misaligned (lo : ℕ)
  | outside (payload heap : Range)
  | overlaps (payload other : Range)
  | notPreserved
  deriving DecidableEq

/-- Why the driver stops: 0 is returned after a complaint about the request `opnum`, or
the package or an assertion ends the process. -/
inductive Stop
  | crashed
  | complaint (opnum : ℕ) (c : Complaint)
  deriving DecidableEq

def ALIGNMENT : ℕ := 8

/-- The test of `add_range` for an overlap. -/
def Overlaps (lo hi : ℕ) (p : Range) : Prop :=
  (p.lo ≤ lo ∧ lo ≤ p.hi) ∨ (p.lo ≤ hi ∧ hi ≤ p.hi)

instance (lo hi : ℕ) : DecidablePred (Overlaps lo hi) := fun p =>
  inferInstanceAs (Decidable ((p.lo ≤ lo ∧ lo ≤ p.hi) ∨ (p.lo ≤ hi ∧ hi ≤ p.hi)))

/-- `add_range`, for a heap with these first and last bytes. -/
def addRange (heap : Range) (ranges : List Range) (lo size opnum : ℕ) :
    Except Stop (List Range) :=
  let hi := lo + size - 1
  -- the assertion at the start
  if size = 0 then .error .crashed
  else if lo % ALIGNMENT ≠ 0 then .error (.complaint opnum (.misaligned lo))
  else if lo < heap.lo ∨ heap.hi < lo ∨ hi < heap.lo ∨ heap.hi < hi then
    .error (.complaint opnum (.outside ⟨lo, hi⟩ heap))
  else
    match ranges.find? fun p => Overlaps lo hi p with
    | some p => .error (.complaint opnum (.overlaps ⟨lo, hi⟩ p))
    | none => .ok (⟨lo, hi⟩ :: ranges)

/-- `remove_range`. -/
def removeRange (lo : ℕ) : List Range → List Range
  | [] => []
  | p :: ranges => if p.lo = lo then ranges else p :: removeRange lo ranges

/-! ## The package and the trace -/

/-- A package under test, with the memory of `memlib.c`.  `none` is a call that does not
return. -/
structure Package (σ : Type) where
  /-- `mem_reset_brk` and `mm_init`. -/
  init : σ → Option (σ × ℤ)
  malloc : σ → ℕ → Option (σ × ℕ)
  free : σ → ℕ → Option σ
  realloc : σ → ℕ → ℕ → Option (σ × ℕ)
  /-- `mem_heap_lo` and `mem_heap_hi`. -/
  heap : σ → Range
  read : σ → ℕ → UInt8
  memset : σ → ℕ → UInt8 → ℕ → σ
  heapsize : σ → ℕ

/-- `traceop_t`. -/
inductive TraceOp
  | alloc (index size : ℕ)
  | free (index : ℕ)
  | realloc (index size : ℕ)
  deriving DecidableEq

/-- The id of a request. -/
def TraceOp.index : TraceOp → ℕ
  | .alloc i _ => i
  | .free i => i
  | .realloc i _ => i

/-- The memory, the range list, and the arrays `blocks` and `block_sizes` of the trace. -/
structure Trial (σ : Type) where
  mem : σ
  ranges : List Range
  blocks : ℕ → ℕ
  blockSizes : ℕ → ℕ

/-- `index & 0xFF`. -/
def lowByte (index : ℕ) : ℕ := index % 256

/-- The value of a `char`. -/
def charValue (c : UInt8) : ℤ := c.toInt8.toInt

/-- A call of the package. -/
def call {α : Type} : Option α → Except Stop α
  | some a => .ok a
  | none => .error .crashed

section

variable {σ : Type} (A : Package σ)

/-- The request `opnum` of the trace, in `eval_mm_valid`. -/
def validStep (opnum : ℕ) (t : Trial σ) : TraceOp → Except Stop (Trial σ)
  | .alloc index size => do
      let (m, p) ← call (A.malloc t.mem size)
      if p = 0 then throw (.complaint opnum .mallocFailed)
      let ranges ← addRange (A.heap m) t.ranges p size opnum
      return ⟨A.memset m p (UInt8.ofNat (lowByte index)) size, ranges,
        Function.update t.blocks index p, Function.update t.blockSizes index size⟩
  | .realloc index size => do
      let oldp := t.blocks index
      let (m, newp) ← call (A.realloc t.mem oldp size)
      if newp = 0 then throw (.complaint opnum .reallocFailed)
      let ranges ← addRange (A.heap m) (removeRange oldp t.ranges) newp size opnum
      let oldsize := if size < t.blockSizes index then size else t.blockSizes index
      if ∃ j < oldsize, charValue (A.read m (newp + j)) ≠ lowByte index then
        throw (.complaint opnum .notPreserved)
      return ⟨A.memset m newp (UInt8.ofNat (lowByte index)) size, ranges,
        Function.update t.blocks index newp, Function.update t.blockSizes index size⟩
  | .free index => do
      let p := t.blocks index
      let m ← call (A.free t.mem p)
      return ⟨m, removeRange p t.ranges, t.blocks, t.blockSizes⟩

/-- The loop of `eval_mm_valid`. -/
def validLoop : ℕ → List TraceOp → Trial σ → Except Stop (Trial σ)
  | _, [], t => .ok t
  | opnum, op :: ops, t => do validLoop (opnum + 1) ops (← validStep A opnum t op)

/-- `eval_mm_valid`. -/
def evalMmValid (ops : List TraceOp) (t : Trial σ) : Except Stop (Trial σ) := do
  let (m, r) ← call (A.init t.mem)
  if r < 0 then throw (.complaint 0 .initFailed)
  validLoop A 0 ops ⟨m, [], t.blocks, t.blockSizes⟩

/-! ## What a request does -/

/-- The trace after a block was returned and filled. -/
def remember (t : Trial σ) (m : σ) (ranges : List Range) (index p size : ℕ) : Trial σ :=
  ⟨A.memset m p (UInt8.ofNat (lowByte index)) size, ranges,
    Function.update t.blocks index p, Function.update t.blockSizes index size⟩

@[simp] theorem blocks_remember (t : Trial σ) (m : σ) (ranges : List Range) (i p n : ℕ) :
    (remember A t m ranges i p n).blocks = Function.update t.blocks i p := rfl

@[simp] theorem blockSizes_remember (t : Trial σ) (m : σ) (ranges : List Range) (i p n : ℕ) :
    (remember A t m ranges i p n).blockSizes = Function.update t.blockSizes i n := rfl

/-- The bytes of `mm_realloc` that the driver looks at. -/
def Preserved (m : σ) (newp size oldsize index : ℕ) : Prop :=
  ∀ j < min size oldsize, charValue (A.read m (newp + j)) = lowByte index

/-- All that a request may do. -/
inductive Stepped (opnum : ℕ) (t : Trial σ) : TraceOp → Except Stop (Trial σ) → Prop
  | alloc {i n p : ℕ} {m : σ} {ranges : List Range} : A.malloc t.mem n = some (m, p) → p ≠ 0 →
      addRange (A.heap m) t.ranges p n opnum = .ok ranges →
      Stepped opnum t (.alloc i n) (.ok (remember A t m ranges i p n))
  | allocRange {i n p : ℕ} {m : σ} {e : Stop} : A.malloc t.mem n = some (m, p) → p ≠ 0 →
      addRange (A.heap m) t.ranges p n opnum = .error e → Stepped opnum t (.alloc i n) (.error e)
  | allocNull {i n : ℕ} {m : σ} : A.malloc t.mem n = some (m, 0) →
      Stepped opnum t (.alloc i n) (.error (.complaint opnum .mallocFailed))
  | allocCrash {i n : ℕ} : A.malloc t.mem n = none →
      Stepped opnum t (.alloc i n) (.error .crashed)
  | realloc {i n p : ℕ} {m : σ} {ranges : List Range} :
      A.realloc t.mem (t.blocks i) n = some (m, p) → p ≠ 0 →
      addRange (A.heap m) (removeRange (t.blocks i) t.ranges) p n opnum = .ok ranges →
      Preserved A m p n (t.blockSizes i) i →
      Stepped opnum t (.realloc i n) (.ok (remember A t m ranges i p n))
  | reallocData {i n p : ℕ} {m : σ} {ranges : List Range} :
      A.realloc t.mem (t.blocks i) n = some (m, p) → p ≠ 0 →
      addRange (A.heap m) (removeRange (t.blocks i) t.ranges) p n opnum = .ok ranges →
      ¬ Preserved A m p n (t.blockSizes i) i →
      Stepped opnum t (.realloc i n) (.error (.complaint opnum .notPreserved))
  | reallocRange {i n p : ℕ} {m : σ} {e : Stop} :
      A.realloc t.mem (t.blocks i) n = some (m, p) → p ≠ 0 →
      addRange (A.heap m) (removeRange (t.blocks i) t.ranges) p n opnum = .error e →
      Stepped opnum t (.realloc i n) (.error e)
  | reallocNull {i n : ℕ} {m : σ} : A.realloc t.mem (t.blocks i) n = some (m, 0) →
      Stepped opnum t (.realloc i n) (.error (.complaint opnum .reallocFailed))
  | reallocCrash {i n : ℕ} : A.realloc t.mem (t.blocks i) n = none →
      Stepped opnum t (.realloc i n) (.error .crashed)
  | free {i : ℕ} {m : σ} : A.free t.mem (t.blocks i) = some m →
      Stepped opnum t (.free i)
        (.ok ⟨m, removeRange (t.blocks i) t.ranges, t.blocks, t.blockSizes⟩)
  | freeCrash {i : ℕ} : A.free t.mem (t.blocks i) = none →
      Stepped opnum t (.free i) (.error .crashed)

theorem preserved_iff {m : σ} {newp size oldsize index : ℕ} :
    Preserved A m newp size oldsize index ↔
      ¬ ∃ j < if size < oldsize then size else oldsize,
        charValue (A.read m (newp + j)) ≠ lowByte index := by
  have hmin : (if size < oldsize then size else oldsize) = min size oldsize := by
    split_ifs <;> omega
  rw [hmin, Preserved]
  push Not
  rfl

theorem validStep_stepped (opnum : ℕ) (t : Trial σ) (op : TraceOp) :
    Stepped A opnum t op (validStep A opnum t op) := by
  cases op with
  | alloc i n =>
      rw [validStep]
      rcases hcall : A.malloc t.mem n with _ | ⟨m, p⟩
      · exact .allocCrash hcall
      · by_cases hp : p = 0
        · subst hp
          exact .allocNull hcall
        · rcases hadd : addRange (A.heap m) t.ranges p n opnum with e | ranges
          · simp only [call, hadd, bind, Except.bind, if_neg hp]
            exact .allocRange hcall hp hadd
          · simp only [call, hadd, bind, Except.bind, if_neg hp]
            exact .alloc hcall hp hadd
  | realloc i n =>
      rw [validStep]
      rcases hcall : A.realloc t.mem (t.blocks i) n with _ | ⟨m, p⟩
      · exact .reallocCrash hcall
      · by_cases hp : p = 0
        · subst hp
          exact .reallocNull hcall
        · rcases hadd : addRange (A.heap m) (removeRange (t.blocks i) t.ranges) p n opnum with
            e | ranges
          · simp only [call, hadd, bind, Except.bind, if_neg hp]
            exact .reallocRange hcall hp hadd
          · simp only [call, hadd, bind, Except.bind, if_neg hp]
            by_cases hdata : Preserved A m p n (t.blockSizes i) i
            · rw [if_neg ((preserved_iff A).mp hdata)]
              exact .realloc hcall hp hadd hdata
            · rw [if_pos (not_not.mp fun h => hdata ((preserved_iff A).mpr h))]
              exact .reallocData hcall hp hadd hdata
  | free i =>
      rw [validStep]
      rcases hcall : A.free t.mem (t.blocks i) with _ | m
      · exact .freeCrash hcall
      · exact .free hcall

end

end Driver
