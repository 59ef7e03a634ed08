/-
# gen_coalescing.pl

Each round of the trace allocates two blocks, frees them, and allocates and frees one of twice the
size.  `mm.c` joins the two blocks, so every round needs the same memory: however many rounds
there are, the heap ends as one free block of the two blocks' size (`genCoalescing_passes`).
-/
import CsappLabs.BalancedTraces

open TraceFile Driver Malloc Layout

namespace GenCoalescing

/-- The requests of one round. -/
def round (blkSize i : ℕ) : List TraceOp :=
  let blk1 := 3 * i
  let blk2 := blk1 + 1
  let blk3 := blk1 + 2
  [.alloc blk1 blkSize, .alloc blk2 blkSize, .free blk1, .free blk2, .alloc blk3 (2 * blkSize),
    .free blk3]

/-- The requests of the script. -/
def trace (blkSize numIters : ℕ) : List TraceOp := (List.range numIters).flatMap (round blkSize)

/-- The file. -/
def genCoalescing (blkSize numIters : ℕ) : List UInt8 :=
  field (2 * blkSize * numIters + 100 : ℕ) newline ++ (field (3 * numIters : ℕ) newline ++
    (field (6 * numIters : ℕ) newline ++ (field 1 newline ++
      (trace blkSize numIters).flatMap fun op => (stored op).line)))

/-! ## The file -/

section

variable {s n : ℕ}

/-- The trace with its header. -/
def traceT (s n : ℕ) : TraceT where
  suggHeapsize := (2 * s * n + 100 : ℕ)
  numIds := (3 * n : ℕ)
  numOps := (6 * n : ℕ)
  weight := 1
  ops := (trace s n).map stored

theorem genCoalescing_eq (s n : ℕ) : genCoalescing s n = render (traceT s n) := by
  rw [genCoalescing, render, traceT, List.flatMap_map]

theorem trace_succ (s n : ℕ) : trace s (n + 1) = trace s n ++ round s n := by
  rw [trace, List.range_succ, List.flatMap_append, List.flatMap_singleton, ← trace]

theorem length_trace (s n : ℕ) : (trace s n).length = 6 * n := by
  induction n with
  | zero => rfl
  | succ n ih =>
      rw [trace_succ, List.length_append, ih]
      show 6 * n + 6 = 6 * (n + 1)
      omega

/-- A request of the trace. -/
theorem mem_trace {op : TraceOp} (hop : op ∈ trace s n) :
    op.index < 3 * n ∧ op.size ≤ 2 * s ∧ ∀ i m, op ≠ .realloc i m := by
  obtain ⟨i, hi, hop⟩ := List.mem_flatMap.mp hop
  have hi := List.mem_range.mp hi
  simp only [round, List.mem_cons, List.not_mem_nil, or_false] at hop
  rcases hop with rfl | rfl | rfl | rfl | rfl | rfl
  all_goals
    refine ⟨?_, ?_, fun j m h => by cases h⟩
    · simp only [TraceOp.index]
      omega
    · simp only [TraceOp.size]
      omega

/-- A round frees what it allocates. -/
theorem liveAfters_round (s i : ℕ) :
    Checktrace.liveAfters [] ((round s i).map stored) = some [] := by
  simp [round, stored, Checktrace.liveAfters, Checktrace.liveAfter]

theorem liveAfters_trace (s n : ℕ) :
    Checktrace.liveAfters [] ((trace s n).map stored) = some [] := by
  induction n with
  | zero => rfl
  | succ n ih =>
      rw [trace_succ, List.map_append, Checktrace.liveAfters_append, ih, Option.bind_some,
        liveAfters_round]

theorem consistent_traceT (hn : 0 < n) (hroom : 72 * n < 2 ^ 32) : Consistent (traceT s n) := by
  have hlen : (traceT s n).ops.length = 6 * n := by
    rw [traceT, List.length_map, length_trace]
  have hall : ∀ i ∈ (traceT s n).ids, 0 ≤ i ∧ i < (3 * n : ℕ) := by
    intro i hi
    obtain ⟨op, hop, hid⟩ := List.mem_filterMap.mp hi
    obtain ⟨op', hop', rfl⟩ := List.mem_map.mp hop
    have hlt := (mem_trace hop').1
    cases op' <;> cases hid <;> simp only [TraceOp.index] at hlt <;> omega
  have hlast : ((3 * n : ℕ) : ℤ) - 1 ∈ (traceT s n).ids := by
    obtain ⟨k, rfl⟩ := Nat.exists_eq_succ_of_ne_zero hn.ne'
    have hcast : ((3 * k.succ : ℕ) : ℤ) - 1 = (3 * k + 2 : ℕ) := by omega
    have hmem : TraceOp.alloc (3 * k + 2) (2 * s) ∈ trace s k.succ := by
      rw [trace_succ]
      exact List.mem_append_right _ (by simp [round])
    rw [hcast, TraceT.ids, List.mem_filterMap]
    exact ⟨_, List.mem_map_of_mem hmem, rfl⟩
  refine ⟨?_, ?_, ?_⟩
  · rw [hlen]
    rfl
  · rw [hlen]
    omega
  · rw [maxIndex_eq (by omega) (by omega) hall hlast]
    show -2 ^ 31 ≤ ((3 * n : ℕ) : ℤ) - 1 ∧
      ((3 * n - 1 : ℕ) : ℤ) = (((3 * n : ℕ) : ℤ) - 1) % 2 ^ 32
    omega

theorem inRange_traceT (hn : 0 < n) (hroom : 72 * n < 2 ^ 32)
    (hsum : 2 * s * n + 100 < 2 ^ 31) : (traceT s n).InRange := by
  have hsize : 2 * s ≤ 2 * s * n := Nat.le_mul_of_pos_right _ hn
  refine ⟨?_, ?_, ?_, (by decide : IsInt 1), fun op hop => ?_⟩
  · show IsInt ((2 * s * n + 100 : ℕ) : ℤ)
    constructor <;> omega
  · show IsInt ((3 * n : ℕ) : ℤ)
    constructor <;> omega
  · show IsInt ((6 * n : ℕ) : ℤ)
    constructor <;> omega
  · obtain ⟨op', hop', rfl⟩ := List.mem_map.mp hop
    obtain ⟨hindex, hle, hnot⟩ := mem_trace hop'
    cases op' with
    | alloc i m =>
        simp only [TraceOp.index, TraceOp.size] at hindex hle
        show IsInt (i : ℤ) ∧ IsInt (m : ℤ)
        refine ⟨?_, ?_⟩ <;> constructor <;> omega
    | free i =>
        simp only [TraceOp.index] at hindex
        show IsInt (i : ℤ)
        constructor <;> omega
    | realloc i m => exact absurd rfl (hnot i m)

end

/-! ## The heap -/

section

variable {s : ℕ}

/-- Twice the size fits into two blocks. -/
theorem blockSize_two_mul (s : ℕ) : blockSize (2 * s) ≤ 2 * blockSize s := by
  unfold blockSize
  omega

/-- The blocks between two rounds. -/
def Ready (s : ℕ) (bs : List Block) : Prop := bs = [] ∨ bs = [⟨2 * blockSize s, .free⟩]

/-- The blocks after the first request of a round. -/
def Half (s : ℕ) (bs : List Block) : Prop :=
  bs = [⟨blockSize s, .alloc⟩] ∨ bs = [⟨blockSize s, .alloc⟩, ⟨blockSize s, .free⟩]

theorem Ready.total_le {bs : List Block} (h : Ready s bs) :
    total Block.size bs ≤ 2 * blockSize s := by
  rcases h with rfl | rfl
  · exact Nat.zero_le _
  · rw [total_cons, total_nil]
    exact le_rfl

theorem Half.total_le {bs : List Block} (h : Half s bs) :
    total Block.size bs ≤ 2 * blockSize s := by
  rcases h with rfl | rfl
  · rw [total_cons, total_nil]
    show blockSize s + 0 ≤ 2 * blockSize s
    omega
  · rw [total_cons, total_cons, total_nil]
    show blockSize s + (blockSize s + 0) ≤ 2 * blockSize s
    omega

/-- The first block. -/
theorem Ready.malloc {bs bs' : List Block} {p : ℕ} (h : Ready s bs)
    (hstep : MallocStep s bs bs' p) : Half s bs' := by
  have hmin := (le_blockSize s).2
  rcases h with rfl | rfl
  · exact .inl (hstep.of_alloc (by simp)).1
  · -- the free block is cut in two
    have hsplit : splitBlock (2 * blockSize s) (blockSize s) =
        [⟨blockSize s, .alloc⟩, ⟨blockSize s, .free⟩] := by
      rw [splitBlock, if_pos (by omega), show 2 * blockSize s - blockSize s = blockSize s by omega]
    have hseq := @MallocStep.of_last _ _ _ [] _ (by simp) (by omega) hstep
    rw [hsplit] at hseq
    exact .inr hseq

/-- The second one. -/
theorem Half.malloc {bs bs' : List Block} {p : ℕ} (h : Half s bs)
    (hstep : MallocStep s bs bs' p) :
    bs' = [⟨blockSize s, .alloc⟩, ⟨blockSize s, .alloc⟩] := by
  rcases h with rfl | rfl
  · exact (hstep.of_alloc (by simp)).1
  · have hseq := @MallocStep.of_last _ _ _ [⟨blockSize s, .alloc⟩] _ (by simp) le_rfl hstep
    rwa [splitBlock_self] at hseq

/-- **A round** leaves one free block. -/
theorem round_ready (hs : 0 < s) (hroom : 440 + 2 * blockSize s + 2 * s ≤ 2 ^ 24)
    {t : Trial Heap} (h : MmInv t []) (hready : Ready s t.seq) (i k : ℕ) :
    ∃ t', validLoop mm k (round s i) t = .ok t' ∧ MmInv t' [] ∧
      t'.seq = [⟨2 * blockSize s, .free⟩] := by
  have hmin := le_blockSize s
  have htotal := hready.total_le
  -- two blocks
  obtain ⟨t₁, hrun₁, h₁, hstep₁, -⟩ :=
    h.alloc_seq (i := 3 * i) List.not_mem_nil hs (by omega) k
  have hhalf := hready.malloc hstep₁
  have htotal₁ := hhalf.total_le
  obtain ⟨t₂, hrun₂, h₂, hstep₂, -⟩ :=
    h₁.alloc_seq (i := 3 * i + 1) (n := s) (by simp) hs (by omega) (k + 1)
  have hseq₂ := hhalf.malloc hstep₂
  have htotal₂ : total Block.size t₂.seq = 2 * blockSize s := by
    rw [hseq₂, total_cons, total_cons, total_nil]
    show blockSize s + (blockSize s + 0) = _
    omega
  -- both are freed
  obtain ⟨t₃, hrun₃, h₃, hstep₃, -⟩ :=
    h₂.free_seq (i := 3 * i) (by simp) (by omega) (k + 2)
  have htotal₃ := hstep₃.total_eq
  have hlive₃ : [3 * i + 1, 3 * i].erase (3 * i) = [3 * i + 1] := by simp
  rw [hlive₃] at h₃
  obtain ⟨t₄, hrun₄, h₄, hstep₄, -⟩ :=
    h₃.free_seq (i := 3 * i + 1) (by simp) (by omega) (k + 3)
  have htotal₄ := hstep₄.total_eq
  rw [List.erase_cons_head] at h₄
  have hseq₄ := seq_of_no_live h₄ (by omega)
  rw [htotal₄, htotal₃, htotal₂] at hseq₄
  -- the block of twice the size fits
  obtain ⟨t₅, hrun₅, h₅, hstep₅, -⟩ :=
    h₄.alloc_seq (i := 3 * i + 2) (n := 2 * s) List.not_mem_nil (by omega) (by omega) (k + 4)
  have htotal₅ : total Block.size t₅.seq = 2 * blockSize s := by
    have hfits := blockSize_two_mul s
    rw [hseq₄] at hstep₅
    have hsplit := @MallocStep.of_last _ _ _ [] _ (by simp) hfits hstep₅
    rw [hsplit, List.nil_append, total_splitBlock hfits]
  obtain ⟨t₆, hrun₆, h₆, hstep₆, -⟩ :=
    h₅.free_seq (i := 3 * i + 2) (by simp) (by omega) (k + 5)
  have htotal₆ := hstep₆.total_eq
  rw [List.erase_cons_head] at h₆
  have hseq₆ := seq_of_no_live h₆ (by omega)
  rw [htotal₆, htotal₅] at hseq₆
  refine ⟨t₆, ?_, h₆, hseq₆⟩
  simp only [round, validLoop, hrun₁, hrun₂, hrun₃, hrun₄, hrun₅, hrun₆, bind, Except.bind]

/-- **Any number of rounds.** -/
theorem trace_ready (hs : 0 < s) (hroom : 440 + 2 * blockSize s + 2 * s ≤ 2 ^ 24)
    {t : Trial Heap} (h : MmInv t []) (hready : Ready s t.seq) (n : ℕ) :
    ∃ t', validLoop mm 0 (trace s n) t = .ok t' ∧ MmInv t' [] ∧ Ready s t'.seq ∧
      (0 < n → t'.seq = [⟨2 * blockSize s, .free⟩]) := by
  induction n with
  | zero => exact ⟨t, rfl, h, hready, fun hn => absurd hn (lt_irrefl 0)⟩
  | succ n ih =>
      obtain ⟨t₁, hrun, h₁, hready₁, -⟩ := ih
      obtain ⟨t₂, hround, h₂, hseq⟩ := round_ready hs hroom h₁ hready₁ n (0 + (trace s n).length)
      refine ⟨t₂, ?_, h₂, .inr hseq, fun _ => hseq⟩
      rw [trace_succ, validLoop_append, hrun]
      exact hround

/-- **The coalescing trace**: the file is balanced and read back when its numbers are `int`s, and
the driver passes `mm.c` on the trace with a heap of two blocks, however many rounds there are. -/
theorem genCoalescing_passes {n : ℕ} (hn : 0 < n) :
    (72 * n < 2 ^ 32 → 2 * s * n + 100 < 2 ^ 31 →
      Complete (genCoalescing s n) (traceT s n)) ∧
    (0 < s → 440 + 2 * blockSize s + 2 * s ≤ 2 ^ 24 → ∀ trial : Trial Heap,
      trial.mem.memStartBrk = 0 → trial.mem.memMaxAddr = MAX_HEAP →
        ∃ trial', evalMmValid mm (trace s n) trial = .ok trial' ∧ trial'.ranges = [] ∧
          blocks trial'.mem = [⟨2 * blockSize s, .free⟩] ∧
            memHeapsize trial'.mem = 424 + 2 * blockSize s) := by
  refine ⟨fun hops hsum => ?_, fun hs hroom trial hstart hmax => ?_⟩
  · rw [genCoalescing_eq]
    exact complete_render (inRange_traceT hn hops hsum) (consistent_traceT hn hops)
      (liveAfters_trace s n)
  obtain ⟨h, heval, hempty, hinv, -⟩ := evalMmValid_mm hstart hmax
  have hready : Ready s (Trial.seq ⟨h, [], trial.blocks, trial.blockSizes⟩) :=
    .inl (hempty.rep.blocks_eq hempty.settled)
  obtain ⟨t', hrun, h', -, hseq⟩ := trace_ready hs hroom hinv hready n
  refine ⟨t', (heval _).trans hrun, h'.recorded.ranges, hseq hn, ?_⟩
  rw [h'.heapsize, hseq hn, total_cons, total_nil]
  rfl

end

/-- The numbers of the script: 2400 rounds in 8632 bytes. -/
theorem genCoalescing_passes_script :
    Complete (genCoalescing 4095 2400) (traceT 4095 2400) ∧
      ∃ trial', evalMmValid mm (trace 4095 2400) zeroes = .ok trial' ∧ trial'.ranges = [] ∧
        blocks trial'.mem = [⟨8208, .free⟩] ∧ memHeapsize trial'.mem = 8632 := by
  obtain ⟨hfile, hdriver⟩ := genCoalescing_passes (s := 4095) (n := 2400) (by decide)
  exact ⟨hfile (by decide) (by decide),
    hdriver (by decide) (by decide) zeroes zeroes_start zeroes_max⟩

end GenCoalescing
