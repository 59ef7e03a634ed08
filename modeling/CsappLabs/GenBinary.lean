/-
# gen_binary.pl and gen_binary2.pl

The trace allocates small and large blocks in turn, frees the large ones, and allocates blocks of
both sizes together.  None of these fits where a large block was, so `mm.c` needs the memory of all
blocks that are ever allocated (`genBinary_passes`).  `checktrace.pl` adds the requests that free
the small blocks and the last ones.
-/
import CsappLabs.BalancedTraces

open TraceFile Driver Malloc Layout

namespace GenBinary

/-- The first loop, up to some number of rounds. -/
def first (blkSize1 blkSize2 : ℕ) (i : ℕ) : List TraceOp :=
  (List.range i).flatMap fun i => [.alloc (2 * i) blkSize1, .alloc (2 * i + 1) blkSize2]

/-- The second one. -/
def second (i : ℕ) : List TraceOp := (List.range i).map fun i => .free (2 * i + 1)

/-- The third one. -/
def third (blkSize12 numIters : ℕ) (i : ℕ) : List TraceOp :=
  (List.range i).map fun i => .alloc (2 * numIters + i) blkSize12

/-- The requests of the scripts. -/
def trace (blkSize1 blkSize2 numIters : ℕ) : List TraceOp :=
  first blkSize1 blkSize2 numIters ++ second numIters ++
    third (blkSize1 + blkSize2) numIters numIters

/-- The file. -/
def genBinary (blkSize1 blkSize2 numIters : ℕ) : List UInt8 :=
  let blkSize12 := blkSize1 + blkSize2
  field ((blkSize1 + blkSize2 + blkSize12) * numIters + 100 : ℕ) newline ++
    (field (3 * numIters : ℕ) newline ++ (field (4 * numIters : ℕ) newline ++
      (field 1 newline ++
        (trace blkSize1 blkSize2 numIters).flatMap fun op => (stored op).line)))

section

variable {m n : ℕ}

theorem first_succ (m n i : ℕ) :
    first m n (i + 1) = first m n i ++ [.alloc (2 * i) m] ++ [.alloc (2 * i + 1) n] := by
  rw [first, List.range_succ, List.flatMap_append, List.flatMap_singleton, ← first,
    List.append_assoc]
  rfl

theorem second_succ (i : ℕ) : second (i + 1) = second i ++ [.free (2 * i + 1)] := by
  rw [second, List.range_succ, List.map_append, List.map_singleton, ← second]

theorem third_succ (n k i : ℕ) :
    third n k (i + 1) = third n k i ++ [.alloc (2 * k + i) n] := by
  rw [third, List.range_succ, List.map_append, List.map_singleton, ← third]

/-! ## Pairs of blocks -/

/-- Pairs of a small and a large block. -/
def pairs (m n : ℕ) (tags : List Tag) : List Block :=
  tags.flatMap fun g => [⟨blockSize m, .alloc⟩, ⟨blockSize n, g⟩]

theorem pairs_append (m n : ℕ) (tags tags' : List Tag) :
    pairs m n (tags ++ tags') = pairs m n tags ++ pairs m n tags' := List.flatMap_append

theorem total_pairs (m n : ℕ) (tags : List Tag) :
    total Block.size (pairs m n tags) = tags.length * (blockSize m + blockSize n) := by
  induction tags with
  | nil => rw [pairs, List.flatMap_nil, total_nil, List.length_nil, Nat.zero_mul]
  | cons g tags ih =>
      rw [← List.singleton_append, pairs_append, total_append, ih, List.length_append,
        Nat.add_mul]
      congr 1
      show blockSize m + (blockSize n + 0) = 1 * (blockSize m + blockSize n)
      omega

/-- A small block stands between two large ones. -/
theorem settled_pairs {tags : List Tag} (htags : ∀ g ∈ tags, g ≠ .loose) :
    Settled (pairs m n tags) := by
  have hsizes : ∀ k, blockSize k % 8 = 0 ∧ 16 ≤ blockSize k := fun k =>
    ⟨blockSize_mod k, (le_blockSize k).2⟩
  induction tags with
  | nil => exact settled_nil
  | cons g tags ih =>
      rw [List.forall_mem_cons] at htags
      show Settled (⟨blockSize m, .alloc⟩ :: ⟨blockSize n, g⟩ :: pairs m n tags)
      have hnext : (nextBlock (pairs m n tags)).tag = .alloc := by
        cases tags <;> rfl
      refine settled_cons.mpr ⟨settled_singleton.mpr ⟨hsizes m, Tag.noConfusion⟩,
        settled_cons.mpr ⟨settled_singleton.mpr ⟨hsizes n, htags.1⟩, ih htags.2, ?_⟩, ?_⟩
      · rw [hnext]
        rintro ⟨-, h⟩
        cases h
      · rintro ⟨h, -⟩
        cases h

/-- The pointer of a large block. -/
def pointer (m n i : ℕ) : ℕ := 420 + (i * (blockSize m + blockSize n) + blockSize m) + 4

/-! ## The loops -/

variable {k : ℕ} {t₀ : Trial Heap}

/-- After some rounds of the first loop. -/
structure AfterFirst (m n i : ℕ) (t₀ t : Trial Heap) : Prop where
  ran : Ran (first m n i) t₀ t
  live : ∀ j, j ∈ liveAfters [] (first m n i) ↔ j < 2 * i
  seq : t.seq = pairs m n (List.replicate i .alloc)
  pointers : ∀ j < i, t.blocks (2 * j + 1) = pointer m n j

/-- One round of it. -/
theorem AfterFirst.succ {i : ℕ} {t : Trial Heap} (h : AfterFirst m n i t₀ t) (hm : 0 < m)
    (hn : 0 < n) (hroom : 440 + (i + 1) * (blockSize m + blockSize n) + m + n ≤ 2 ^ 24) :
    ∃ t', AfterFirst m n (i + 1) t₀ t' := by
  have htotal : total Block.size t.seq = i * (blockSize m + blockSize n) := by
    rw [h.seq, total_pairs, List.length_replicate]
  rw [Nat.add_mul, Nat.one_mul] at hroom
  have halloc : ∀ b ∈ t.seq, b.tag = .alloc := by
    intro b hb
    rw [h.seq, pairs, List.mem_flatMap] at hb
    obtain ⟨g, hg, hb⟩ := hb
    rw [List.eq_of_mem_replicate hg] at hb
    simp only [List.mem_cons, List.not_mem_nil, or_false] at hb
    rcases hb with rfl | rfl <;> rfl
  obtain ⟨t₁, h₁, hstep₁, hother₁⟩ := h.ran.alloc (i := 2 * i) (n := m)
    (by rw [h.live]; omega) hm (by omega)
  obtain ⟨hseq₁, -⟩ := hstep₁.of_alloc halloc
  have htotal₁ : total Block.size t₁.seq = i * (blockSize m + blockSize n) + blockSize m := by
    rw [hseq₁, total_append, htotal]
    rfl
  have halloc₁ : ∀ b ∈ t₁.seq, b.tag = .alloc := by
    intro b hb
    rw [hseq₁, List.mem_append, List.mem_singleton] at hb
    rcases hb with hb | rfl
    · exact halloc b hb
    · rfl
  have hlive₁ : ∀ j, j ∈ liveAfters [] (first m n i ++ [.alloc (2 * i) m]) ↔ j < 2 * i + 1 := by
    intro j
    rw [liveAfters_append]
    show j ∈ 2 * i :: liveAfters [] (first m n i) ↔ _
    rw [List.mem_cons, h.live]
    omega
  obtain ⟨t₂, h₂, hstep₂, hother₂⟩ := h₁.alloc (i := 2 * i + 1) (n := n)
    (by rw [hlive₁]; omega) hn (by omega)
  obtain ⟨hseq₂, hpointer⟩ := hstep₂.of_alloc halloc₁
  rw [← first_succ] at h₂
  refine ⟨t₂, h₂, fun j => ?_, ?_, fun j hj => ?_⟩
  · rw [first_succ, liveAfters_append]
    show j ∈ (2 * i + 1) :: liveAfters [] (first m n i ++ [.alloc (2 * i) m]) ↔ _
    rw [List.mem_cons, hlive₁]
    omega
  · rw [hseq₂, hseq₁, h.seq, List.replicate_succ', pairs_append, List.append_assoc]
    rfl
  · rcases Nat.lt_succ_iff_lt_or_eq.mp hj with hj | rfl
    · rw [hother₂ _ (by omega), hother₁ _ (by omega), h.pointers j hj]
    · rw [hpointer, htotal₁, pointer]

theorem exists_afterFirst (hm : 0 < m) (hn : 0 < n) (hinv : MmInv t₀ []) (hseq : t₀.seq = [])
    (hroom : 440 + k * (blockSize m + blockSize n) + m + n ≤ 2 ^ 24) :
    ∃ t, AfterFirst m n k t₀ t := by
  have hloop : ∀ i ≤ k, ∃ t, AfterFirst m n i t₀ t := by
    intro i hi
    induction i with
    | zero =>
        refine ⟨t₀, ⟨trivial, rfl, hinv⟩, fun j => ?_, hseq, fun j hj => absurd hj (by omega)⟩
        exact iff_of_false List.not_mem_nil (by omega)
    | succ i ih =>
        obtain ⟨t, h⟩ := ih (by omega)
        have hle := Nat.mul_le_mul_right (blockSize m + blockSize n) hi
        exact h.succ hm hn (by omega)
  exact hloop k le_rfl

/-- After some rounds of the second loop. -/
structure AfterSecond (m n k i : ℕ) (t₀ t : Trial Heap) : Prop where
  ran : Ran (first m n k ++ second i) t₀ t
  live : ∀ j, j ∈ liveAfters [] (first m n k ++ second i) ↔ j < 2 * k ∧ ∀ l < i, j ≠ 2 * l + 1
  seq : t.seq = pairs m n (List.replicate i .free ++ List.replicate (k - i) .alloc)
  pointers : ∀ j < k, t.blocks (2 * j + 1) = pointer m n j

/-- One round of it: the neighbours are allocated. -/
theorem AfterSecond.succ {i : ℕ} {t : Trial Heap} (h : AfterSecond m n k i t₀ t) (hi : i < k)
    (hroom : 440 + k * (blockSize m + blockSize n) ≤ 2 ^ 24) :
    ∃ t', AfterSecond m n k (i + 1) t₀ t' := by
  have htotal : total Block.size t.seq = k * (blockSize m + blockSize n) := by
    rw [h.seq, total_pairs, List.length_append, List.length_replicate, List.length_replicate,
      Nat.add_sub_cancel' hi.le]
  have hmem : 2 * i + 1 ∈ liveAfters [] (first m n k ++ second i) := by
    rw [h.live]
    exact ⟨by omega, fun l hl => by omega⟩
  obtain ⟨t', h', hstep, hsame⟩ := h.ran.free hmem (by omega)
  have hnodup := h.ran.inv.recorded.nodup
  rw [List.append_assoc, ← second_succ] at h'
  obtain ⟨d, hd⟩ : ∃ d, k - i = d + 1 := ⟨k - i - 1, by omega⟩
  have hold : ∀ g, pairs m n (List.replicate i .free ++ g :: List.replicate d .alloc) =
      (pairs m n (List.replicate i .free) ++ [⟨blockSize m, .alloc⟩]) ++
        ⟨blockSize n, g⟩ :: pairs m n (List.replicate d .alloc) := by
    intro g
    rw [pairs_append, List.append_assoc]
    rfl
  have htags : ∀ g : Tag, g ≠ .loose →
      ∀ g' ∈ List.replicate i Tag.free ++ g :: List.replicate d .alloc, g' ≠ .loose := by
    intro g hg g' hg'
    rcases List.mem_append.mp hg' with hg' | hg'
    · rw [List.eq_of_mem_replicate hg']
      decide
    · rcases List.mem_cons.mp hg' with rfl | hg'
      · exact hg
      · rw [List.eq_of_mem_replicate hg']
        decide
  have hseq := h.seq
  rw [hd, List.replicate_succ, hold] at hseq
  rw [hseq, h.pointers i hi] at hstep
  have hsettled := settled_pairs (m := m) (n := n) (htags .alloc (by decide))
  have hsettled' := settled_pairs (m := m) (n := n) (htags .free (by decide))
  rw [hold] at hsettled hsettled'
  have hpointer : pointer m n i =
      420 + total Block.size (pairs m n (List.replicate i .free) ++ [⟨blockSize m, .alloc⟩]) + 4 := by
    rw [total_append, total_pairs, List.length_replicate]
    rfl
  have hnew := hstep.of_apart hsettled hpointer hsettled'
  refine ⟨t', h', fun j => ?_, ?_, fun j hj => ?_⟩
  · have herase : liveAfters [] (first m n k ++ second (i + 1)) =
        (liveAfters [] (first m n k ++ second i)).erase (2 * i + 1) := by
      rw [second_succ, ← List.append_assoc, liveAfters_append]
      rfl
    rw [herase, hnodup.mem_erase_iff, h.live]
    constructor
    · rintro ⟨hne, hlt, hall⟩
      refine ⟨hlt, fun l hl => ?_⟩
      rcases Nat.lt_succ_iff_lt_or_eq.mp hl with hl | rfl
      · exact hall l hl
      · exact hne
    · rintro ⟨hlt, hall⟩
      exact ⟨hall i (Nat.lt_succ_self i), hlt, fun l hl => hall l (Nat.lt_succ_of_lt hl)⟩
  · rw [hnew, ← hold, List.replicate_succ', List.append_assoc, show k - (i + 1) = d by omega]
    rfl
  · rw [hsame, h.pointers j hj]

theorem AfterFirst.exists_afterSecond {t : Trial Heap} (h : AfterFirst m n k t₀ t)
    (hroom : 440 + k * (blockSize m + blockSize n) ≤ 2 ^ 24) :
    ∃ t', AfterSecond m n k k t₀ t' := by
  have hloop : ∀ i ≤ k, ∃ t', AfterSecond m n k i t₀ t' := by
    intro i hi
    induction i with
    | zero =>
        refine ⟨t, ?_, fun j => ?_, h.seq, h.pointers⟩
        · rw [second, List.range_zero, List.map_nil, List.append_nil]
          exact h.ran
        · rw [second, List.range_zero, List.map_nil, List.append_nil, h.live]
          exact ⟨fun hj => ⟨hj, fun l hl => absurd hl (by omega)⟩, fun hj => hj.1⟩
    | succ i ih =>
        obtain ⟨t', h'⟩ := ih (by omega)
        exact h'.succ hi hroom
  exact hloop k le_rfl

/-- After some rounds of the third loop. -/
structure AfterThird (m n k i : ℕ) (t₀ t : Trial Heap) : Prop where
  ran : Ran (first m n k ++ second k ++ third (m + n) k i) t₀ t
  live : ∀ j, j ∈ liveAfters [] (first m n k ++ second k ++ third (m + n) k i) ↔
    (j < 2 * k ∧ ∀ l < k, j ≠ 2 * l + 1) ∨ (2 * k ≤ j ∧ j < 2 * k + i)
  free : ∀ s, ⟨s, .free⟩ ∈ t.seq → s = blockSize n
  bytes : total Block.size t.seq = k * (blockSize m + blockSize n) + i * blockSize (m + n)

/-- One round of it: the free blocks are too small, so the heap grows. -/
theorem AfterThird.succ {i : ℕ} {t : Trial Heap} (h : AfterThird m n k i t₀ t) (hmn : 0 < m + n)
    (hlarger : blockSize n < blockSize (m + n))
    (hroom : 440 + (k * (blockSize m + blockSize n) + i * blockSize (m + n)) + (m + n) ≤ 2 ^ 24) :
    ∃ t', AfterThird m n k (i + 1) t₀ t' := by
  have hmin := (le_blockSize n).2
  have htotal := h.bytes
  obtain ⟨t', h', hstep, -⟩ := h.ran.alloc (i := 2 * k + i) (n := m + n) (by
    rw [h.live]
    rintro (⟨hlt, -⟩ | ⟨-, hlt⟩) <;> omega) hmn (by omega)
  have hsmall : ∀ s, ⟨s, .free⟩ ∈ t.seq → s < blockSize (m + n) := by
    intro s hs
    rw [h.free s hs]
    exact hlarger
  rw [List.append_assoc, ← third_succ] at h'
  refine ⟨t', h', fun j => ?_, ?_, ?_⟩
  · rw [third_succ, ← List.append_assoc, liveAfters_append]
    show j ∈ (2 * k + i) :: liveAfters [] (first m n k ++ second k ++ third (m + n) k i) ↔ _
    rw [List.mem_cons, h.live]
    constructor
    · rintro (rfl | hj | hj)
      · exact .inr ⟨by omega, by omega⟩
      · exact .inl hj
      · exact .inr ⟨hj.1, by omega⟩
    · rintro (hj | ⟨hle, hlt⟩)
      · exact .inr (.inl hj)
      · rcases Nat.lt_or_ge j (2 * k + i) with hj | hj
        · exact .inr (.inr ⟨hle, hj⟩)
        · exact .inl (by omega)
  · obtain ⟨xs, l, hold, hl, hnew, -⟩ := hstep.of_small hsmall
    intro s hs
    rw [hnew] at hs
    rcases List.mem_append.mp hs with hs | hs
    · exact h.free s (by rw [hold]; exact List.mem_append_left _ hs)
    · rcases hl with ⟨rfl, -⟩ | ⟨a, rfl⟩
      · rw [total_nil, Nat.zero_add, splitBlock_self, List.mem_singleton] at hs
        cases hs
      · have ha : a = blockSize n := h.free a (by rw [hold]; simp)
        have hsum : total Block.size [⟨a, .free⟩] + blockSize (m + n) - blockSize (m + n) = a := by
          rw [total_cons, total_nil]
          exact Nat.add_sub_cancel a _
        rw [splitBlock, hsum, if_pos (by omega)] at hs
        simp only [List.mem_cons, List.not_mem_nil, or_false] at hs
        rcases hs with hs | hs
        · cases hs
        · cases hs
          exact ha
  · rcases hstep.total_eq with hsame | ⟨-, hgrown⟩
    · -- it would have taken a free block
      obtain ⟨xs, l, hold, -, hnew, -⟩ := hstep.of_small hsmall
      have hpos := (le_blockSize (m + n)).2
      rw [hold, hnew, total_append, total_append, total_splitBlock (by omega)] at hsame
      omega
    · rw [hgrown, h.bytes, Nat.add_mul, Nat.one_mul, Nat.add_assoc]

theorem AfterSecond.exists_afterThird {t : Trial Heap} (h : AfterSecond m n k k t₀ t)
    (hmn : 0 < m + n) (hlarger : blockSize n < blockSize (m + n))
    (hroom : 440 + (k * (blockSize m + blockSize n) + k * blockSize (m + n)) + (m + n) ≤ 2 ^ 24) :
    ∃ t', AfterThird m n k k t₀ t' := by
  have hloop : ∀ i ≤ k, ∃ t', AfterThird m n k i t₀ t' := by
    intro i hi
    induction i with
    | zero =>
        refine ⟨t, ?_, fun j => ?_, fun s hs => ?_, ?_⟩
        · rw [third, List.range_zero, List.map_nil, List.append_nil]
          exact h.ran
        · rw [third, List.range_zero, List.map_nil, List.append_nil, h.live]
          exact ⟨.inl, fun hj => hj.resolve_right (by omega)⟩
        · rw [h.seq, pairs, List.mem_flatMap] at hs
          obtain ⟨g, -, hs⟩ := hs
          simp only [List.mem_cons, List.not_mem_nil, or_false] at hs
          rcases hs with hs | hs
          · cases hs
          · cases hs
            rfl
        · rw [h.seq, total_pairs, List.length_append, List.length_replicate,
            List.length_replicate, Nat.sub_self, Nat.add_zero, Nat.zero_mul, Nat.add_zero]
    | succ i ih =>
        obtain ⟨t', h'⟩ := ih (by omega)
        have hle := Nat.mul_le_mul_right (blockSize (m + n)) (Nat.le_of_succ_le hi)
        exact h'.succ hmn hlarger (by omega)
  exact hloop k le_rfl

/-! ## The file -/

/-- The trace with its header. -/
def traceT (m n k : ℕ) : TraceT where
  suggHeapsize := ((m + n + (m + n)) * k + 100 : ℕ)
  numIds := (3 * k : ℕ)
  numOps := (4 * k : ℕ)
  weight := 1
  ops := (trace m n k).map stored

theorem genBinary_eq (m n k : ℕ) : genBinary m n k = render (traceT m n k) := by
  rw [genBinary, render, traceT, List.flatMap_map]

theorem length_trace (m n k : ℕ) : (trace m n k).length = 4 * k := by
  have hfirst : (first m n k).length = 2 * k := by
    induction k with
    | zero => rfl
    | succ k ih =>
        rw [first_succ, List.length_append, List.length_append, ih, List.length_singleton,
          List.length_singleton]
        omega
  rw [trace, List.length_append, List.length_append, hfirst, second, third, List.length_map,
    List.length_map, List.length_range]
  omega

/-- A request of the trace. -/
theorem mem_trace {op : TraceOp} (hop : op ∈ trace m n k) :
    op.index < 3 * k ∧ op.size ≤ m + n ∧ ∀ i s, op ≠ .realloc i s := by
  rw [trace, List.mem_append, List.mem_append, first, second, third, List.mem_flatMap,
    List.mem_map, List.mem_map] at hop
  rcases hop with (⟨i, hi, hop⟩ | ⟨i, hi, rfl⟩) | ⟨i, hi, rfl⟩
  · have hi := List.mem_range.mp hi
    simp only [List.mem_cons, List.not_mem_nil, or_false] at hop
    rcases hop with rfl | rfl
    · exact ⟨show 2 * i < 3 * k by omega, Nat.le_add_right m n, fun j s h => by cases h⟩
    · exact ⟨show 2 * i + 1 < 3 * k by omega, Nat.le_add_left n m, fun j s h => by cases h⟩
  · have hi := List.mem_range.mp hi
    exact ⟨show 2 * i + 1 < 3 * k by omega, Nat.zero_le _, fun j s h => by cases h⟩
  · have hi := List.mem_range.mp hi
    exact ⟨show 2 * k + i < 3 * k by omega, le_rfl, fun j s h => by cases h⟩

theorem consistent_traceT (hk : 0 < k) (hops : 48 * k < 2 ^ 32) : Consistent (traceT m n k) := by
  have hlen : (traceT m n k).ops.length = 4 * k := by
    rw [traceT, List.length_map, length_trace]
  have hall : ∀ i ∈ (traceT m n k).ids, 0 ≤ i ∧ i < (3 * k : ℕ) := by
    intro i hi
    obtain ⟨op, hop, hid⟩ := List.mem_filterMap.mp hi
    obtain ⟨op', hop', rfl⟩ := List.mem_map.mp hop
    have hlt := (mem_trace hop').1
    cases op' <;> cases hid <;> simp only [TraceOp.index] at hlt <;> omega
  have hlast : ((3 * k : ℕ) : ℤ) - 1 ∈ (traceT m n k).ids := by
    have hcast : ((3 * k : ℕ) : ℤ) - 1 = (2 * k + (k - 1) : ℕ) := by omega
    have hmem : TraceOp.alloc (2 * k + (k - 1)) (m + n) ∈ trace m n k := by
      rw [trace, third]
      exact List.mem_append_right _ (List.mem_map.mpr
        ⟨k - 1, List.mem_range.mpr (by omega), rfl⟩)
    rw [hcast, TraceT.ids, List.mem_filterMap]
    exact ⟨_, List.mem_map_of_mem hmem, rfl⟩
  refine ⟨?_, ?_, ?_⟩
  · rw [hlen]
    rfl
  · rw [hlen]
    omega
  · rw [maxIndex_eq (by omega) (by omega) hall hlast]
    show -2 ^ 31 ≤ ((3 * k : ℕ) : ℤ) - 1 ∧
      ((3 * k - 1 : ℕ) : ℤ) = (((3 * k : ℕ) : ℤ) - 1) % 2 ^ 32
    omega

theorem inRange_traceT (hops : 48 * k < 2 ^ 32) (hsize : m + n < 2 ^ 31)
    (hsum : (m + n + (m + n)) * k + 100 < 2 ^ 31) : (traceT m n k).InRange := by
  refine ⟨?_, ?_, ?_, (by decide : IsInt 1), fun op hop => ?_⟩
  · show IsInt (((m + n + (m + n)) * k + 100 : ℕ) : ℤ)
    constructor <;> omega
  · show IsInt ((3 * k : ℕ) : ℤ)
    constructor <;> omega
  · show IsInt ((4 * k : ℕ) : ℤ)
    constructor <;> omega
  · obtain ⟨op', hop', rfl⟩ := List.mem_map.mp hop
    obtain ⟨hindex, hle, hnot⟩ := mem_trace hop'
    cases op' with
    | alloc i s =>
        simp only [TraceOp.index, TraceOp.size] at hindex hle
        show IsInt (i : ℤ) ∧ IsInt (s : ℤ)
        refine ⟨?_, ?_⟩ <;> constructor <;> omega
    | free i =>
        simp only [TraceOp.index] at hindex
        show IsInt (i : ℤ)
        constructor <;> omega
    | realloc i s => exact absurd rfl (hnot i s)

/-- The bytes of all blocks that are ever allocated. -/
def bytes (m n k : ℕ) : ℕ := k * (blockSize m + blockSize n) + k * blockSize (m + n)

/-- **The trace** runs, and leaves the small blocks and the last ones. -/
theorem exists_ran (hm : 0 < m) (hn : 0 < n) (hlarger : blockSize n < blockSize (m + n))
    (hroom : 440 + bytes m n k + (m + n) ≤ 2 ^ 24) {trial : Trial Heap}
    (hstart : trial.mem.memStartBrk = 0) (hmax : trial.mem.memMaxAddr = MAX_HEAP) :
    ∃ h t, (∀ ops, evalMmValid mm ops trial =
        validLoop mm 0 ops ⟨h, [], trial.blocks, trial.blockSizes⟩) ∧
      Ran (trace m n k) ⟨h, [], trial.blocks, trial.blockSizes⟩ t ∧
      (∀ j, j ∈ liveAfters [] (trace m n k) ↔
        (j < 2 * k ∧ ∀ l < k, j ≠ 2 * l + 1) ∨ (2 * k ≤ j ∧ j < 2 * k + k)) ∧
      total Block.size t.seq = bytes m n k := by
  rw [bytes] at hroom ⊢
  obtain ⟨h, heval, hempty, hinv, -⟩ := evalMmValid_mm hstart hmax
  obtain ⟨t₁, h₁⟩ := exists_afterFirst (k := k) hm hn hinv (hempty.rep.blocks_eq hempty.settled)
    (by omega)
  obtain ⟨t₂, h₂⟩ := h₁.exists_afterSecond (by omega)
  obtain ⟨t₃, h₃⟩ := h₂.exists_afterThird (by omega) hlarger (by omega)
  exact ⟨h, t₃, heval, h₃.ran, h₃.live, h₃.bytes⟩

/-- The ids that have a block at the end. -/
def left (k : ℕ) : List ℕ := (List.range k).map (2 * ·) ++ (List.range k).map (2 * k + ·)

theorem left_perm {ids : List ℕ} (hids : ids.Nodup)
    (hmem : ∀ j, j ∈ ids ↔
      (j < 2 * k ∧ ∀ l < k, j ≠ 2 * l + 1) ∨ (2 * k ≤ j ∧ j < 2 * k + k)) :
    ids.Perm (left k) := by
  have hleft : (left k).Nodup := by
    rw [left, List.nodup_append]
    refine ⟨List.nodup_range.map fun a b h => ?_, List.nodup_range.map fun a b h => ?_,
      fun a ha b hb => ?_⟩
    · exact Nat.eq_of_mul_eq_mul_left (by decide) h
    · exact Nat.add_left_cancel h
    · obtain ⟨i, hi, rfl⟩ := List.mem_map.mp ha
      obtain ⟨j, -, rfl⟩ := List.mem_map.mp hb
      have hi := List.mem_range.mp hi
      omega
  rw [List.perm_ext_iff_of_nodup hids hleft]
  intro j
  rw [hmem, left, List.mem_append, List.mem_map, List.mem_map]
  constructor
  · rintro (⟨hlt, hall⟩ | ⟨hle, hlt⟩)
    · refine .inl ⟨j / 2, List.mem_range.mpr (by omega), ?_⟩
      have hodd := hall (j / 2) (by omega)
      omega
    · exact .inr ⟨j - 2 * k, List.mem_range.mpr (by omega), by omega⟩
  · rintro (⟨i, hi, rfl⟩ | ⟨i, hi, rfl⟩)
    · have hi := List.mem_range.mp hi
      exact .inl ⟨by omega, fun l hl => by omega⟩
    · have hi := List.mem_range.mp hi
      exact .inr ⟨by omega, by omega⟩

/-- The ids as `checktrace.pl` reads them. -/
def leftIds (k : ℕ) : List ℤ := (left k).map Nat.cast

theorem length_leftIds (k : ℕ) : (leftIds k).length = 2 * k := by
  rw [leftIds, left, List.length_map, List.length_append, List.length_map, List.length_map,
    List.length_range, Nat.two_mul]

theorem leftIds_range {i : ℤ} (hi : i ∈ leftIds k) : 0 ≤ i ∧ i < 3 * k := by
  obtain ⟨j, hj, rfl⟩ := List.mem_map.mp hi
  rw [left, List.mem_append, List.mem_map, List.mem_map] at hj
  rcases hj with ⟨l, hl, rfl⟩ | ⟨l, hl, rfl⟩
  · have hl := List.mem_range.mp hl
    omega
  · have hl := List.mem_range.mp hl
    omega

/-- What is added frees what is left. -/
theorem frees_perm {ids : List ℕ} (hids : ids.Perm (left k)) :
    ((Checktrace.sortIds (leftIds k)).map Int.toNat).Perm ids := by
  have hsorted := (Checktrace.sortIds_perm (leftIds k)).map Int.toNat
  rw [leftIds, List.map_map] at hsorted
  exact hsorted.trans ((List.Perm.of_eq (List.map_id _)).trans hids.symm)

theorem frees_eq (L : List ℤ) : frees L = ((Checktrace.sortIds L).map Int.toNat).map .free := by
  rw [frees, List.map_map]
  rfl

/-- **The balanced trace** runs, in the memory of the first part. -/
theorem exists_balanced_ran (hm : 0 < m) (hn : 0 < n) (hlarger : blockSize n < blockSize (m + n))
    (hroom : 440 + bytes m n k + (m + n) ≤ 2 ^ 24) {trial : Trial Heap}
    (hstart : trial.mem.memStartBrk = 0) (hmax : trial.mem.memMaxAddr = MAX_HEAP) :
    LegalTrace [] (trace m n k ++ frees (leftIds k)) ∧
      liveAfters [] (trace m n k ++ frees (leftIds k)) = [] ∧
      ∃ t, evalMmValid mm (trace m n k ++ frees (leftIds k)) trial = .ok t ∧ MmInv t [] ∧
        total Block.size t.seq = bytes m n k := by
  obtain ⟨h, t, heval, hran, hmem, hbytes⟩ := exists_ran hm hn hlarger hroom hstart hmax
  have hids := frees_perm (left_perm hran.inv.recorded.nodup hmem)
  obtain ⟨t', hran', hend, hsame⟩ := hran.frees hids (by omega)
  rw [← frees_eq] at hran' hend
  have hinv := hran'.inv
  rw [hend] at hinv
  exact ⟨hran'.legal, hend, t', (heval _).trans hran'.run, hinv, hsame.trans hbytes⟩

/-- What the script finds without a block that is freed. -/
theorem exists_left (hm : 0 < m) (hn : 0 < n) (hlarger : blockSize n < blockSize (m + n))
    (hroom : 440 + bytes m n k + (m + n) ≤ 2 ^ 24) :
    ∃ L, Checktrace.liveAfters [] ((trace m n k).map stored) = some L ∧ L.Perm (leftIds k) := by
  obtain ⟨h, t, _, hran, hmem, _⟩ := exists_ran hm hn hlarger hroom zeroes_start zeroes_max
  obtain ⟨L, hlive, hperm⟩ :=
    @liveAfters_of_legalTrace (trace m n k) [] [] (List.Perm.refl []) hran.legal
  exact ⟨L, hlive, hperm.trans ((left_perm hran.inv.recorded.nodup hmem).map Nat.cast)⟩

/-- **The binary trace.**  `checktrace.pl` adds the requests for the ids that are left; its output
frees everything, and the driver passes `mm.c` on it with a heap that has room for all blocks of
the trace at once. -/
theorem genBinary_passes (hm : 0 < m) (hn : 0 < n) (hk : 0 < k)
    (hlarger : blockSize n < blockSize (m + n)) (hroom : 440 + bytes m n k + (m + n) ≤ 2 ^ 24) :
    Checktrace.checktrace false (genBinary m n k) =
        some (render (Checktrace.balanced (traceT m n k) (leftIds k)), none) ∧
      Complete (render (Checktrace.balanced (traceT m n k) (leftIds k)))
        (Checktrace.balanced (traceT m n k) (leftIds k)) ∧
      ∀ trial : Trial Heap, trial.mem.memStartBrk = 0 → trial.mem.memMaxAddr = MAX_HEAP →
        ∃ trial', evalMmValid mm (trace m n k ++ frees (leftIds k)) trial = .ok trial' ∧
          trial'.ranges = [] ∧ blocks trial'.mem = [⟨bytes m n k, .free⟩] ∧
            memHeapsize trial'.mem = 424 + bytes m n k := by
  have hall : 48 ≤ blockSize m + blockSize n + blockSize (m + n) ∧
      m + n + (m + n) ≤ blockSize m + blockSize n + blockSize (m + n) := by
    have hone := le_blockSize m
    have htwo := le_blockSize n
    have hboth := le_blockSize (m + n)
    omega
  have hbytes : bytes m n k = (blockSize m + blockSize n + blockSize (m + n)) * k := by
    rw [bytes, ← Nat.mul_add, Nat.mul_comm]
  have hfew : 48 * k ≤ bytes m n k := hbytes ▸ Nat.mul_le_mul_right k hall.1
  have hsum : (m + n + (m + n)) * k ≤ bytes m n k := hbytes ▸ Nat.mul_le_mul_right k hall.2
  have hr : (traceT m n k).InRange := inRange_traceT (by omega) (by omega) (by omega)
  have hc : Consistent (traceT m n k) := consistent_traceT hk (by omega)
  have hlen : (traceT m n k).ops.length = 4 * k := by
    rw [traceT, List.length_map, length_trace]
  obtain ⟨L, hlive, hleft⟩ := exists_left hm hn hlarger hroom
  obtain ⟨hlegal, hend, -⟩ := exists_balanced_ran hm hn hlarger hroom zeroes_start zeroes_max
  refine ⟨?_, complete_render (inRange_balanced hr ?_ ?_) (consistent_balanced hc ?_) ?_,
    fun trial hstart hmax => ?_⟩
  · rw [genBinary_eq, Checktrace.checktrace_of_live hr.numOps (by omega) hlive,
      Checktrace.balanced_congr _ hleft]
  · intro i hi
    obtain ⟨hlo, hhi⟩ := leftIds_range hi
    constructor <;> omega
  · rw [length_leftIds]
    show ((4 * k : ℕ) : ℤ) + (2 * k : ℕ) < 2 ^ 31
    omega
  · rw [hlen, length_leftIds]
    omega
  · -- nothing is left behind the requests that were added
    obtain ⟨L', hlive', hperm⟩ :=
      @liveAfters_of_legalTrace (trace m n k ++ frees (leftIds k)) [] [] (List.Perm.refl []) hlegal
    rw [hend] at hperm
    rw [List.map_append, stored_frees fun i hi => (leftIds_range hi).1] at hlive'
    show Checktrace.liveAfters [] ((trace m n k).map stored ++
      (Checktrace.sortIds (leftIds k)).map .free) = some []
    rw [hlive', hperm.eq_nil]
  · obtain ⟨-, -, t, hok, hinv, htotal⟩ := exists_balanced_ran hm hn hlarger hroom hstart hmax
    have hseq := seq_of_no_live hinv (by omega)
    rw [htotal] at hseq
    refine ⟨t, hok, hinv.recorded.ranges, hseq, ?_⟩
    rw [hinv.heapsize, htotal]

end

/-- The numbers of `gen_binary.pl`: its balanced trace needs 2096424 bytes. -/
theorem genBinary_passes_script :
    Checktrace.checktrace false (genBinary 64 448 2000) =
        some (render (Checktrace.balanced (traceT 64 448 2000) (leftIds 2000)), none) ∧
      Complete (render (Checktrace.balanced (traceT 64 448 2000) (leftIds 2000)))
        (Checktrace.balanced (traceT 64 448 2000) (leftIds 2000)) ∧
      ∃ trial', evalMmValid mm (trace 64 448 2000 ++ frees (leftIds 2000)) zeroes = .ok trial' ∧
        memHeapsize trial'.mem = 2096424 := by
  obtain ⟨hbalanced, hfile, hdriver⟩ := genBinary_passes (m := 64) (n := 448) (k := 2000)
    (by decide) (by decide) (by decide) (by decide) (by decide)
  obtain ⟨trial', hrun, -, -, hsize⟩ := hdriver zeroes zeroes_start zeroes_max
  exact ⟨hbalanced, hfile, trial', hrun, hsize⟩

end GenBinary
