/-
# What a trace does to the blocks

The requests of a legal trace as steps of the sequence of blocks: `alloc` does a `MallocStep`, `free`
a `FreeStep`, as long as there is room.  With few free blocks the step is known: a block that is
too small is not taken (`MallocStep.of_small`), and the last one is split when it is large enough
(`MallocStep.of_last`).
-/
import CsappLabs.DriverMm
import CsappLabs.FreeOrder

open Layout Malloc

namespace Malloc

/-! ## Steps of `mm_malloc` -/

/-- Where a list with one free block at its end can be cut at a free block. -/
theorem append_free_inj {xs ys : List Block} {s t : ℕ} (hxs : ∀ b ∈ xs, b.tag = .alloc)
    {zs : List Block} (h : xs ++ [⟨s, .free⟩] = zs ++ ⟨t, .free⟩ :: ys) :
    zs = xs ∧ t = s ∧ ys = [] := by
  induction xs generalizing zs with
  | nil =>
      cases zs with
      | nil =>
          cases h
          exact ⟨rfl, rfl, rfl⟩
      | cons b zs =>
          have hlen := congrArg List.length h
          simp at hlen
  | cons b xs ih =>
      rw [List.forall_mem_cons] at hxs
      cases zs with
      | nil =>
          cases h
          cases hxs.1
      | cons c zs =>
          obtain ⟨rfl, hrest⟩ := List.cons.inj h
          obtain ⟨rfl, rfl, rfl⟩ := ih hxs.2 hrest
          exact ⟨rfl, rfl, rfl⟩

/-- The only free block is the last one, and it is large enough. -/
theorem MallocStep.of_last {n s p : ℕ} {xs bs : List Block} (hxs : ∀ b ∈ xs, b.tag = .alloc)
    (hle : blockSize n ≤ s) (h : MallocStep n (xs ++ [⟨s, .free⟩]) bs p) :
    bs = xs ++ splitBlock s (blockSize n) := by
  generalize hold : xs ++ [⟨s, .free⟩] = old at h
  cases h with
  | @fit zs ys t hfits =>
      obtain ⟨rfl, rfl, rfl⟩ := append_free_inj hxs hold
      rw [List.append_nil]
  | extend hnone _ =>
      have hlt := hnone s (by rw [← hold]; simp)
      omega

/-- No free block is large enough. -/
theorem MallocStep.of_small {n p : ℕ} {bs bs' : List Block}
    (hsmall : ∀ s, ⟨s, .free⟩ ∈ bs → s < blockSize n) (h : MallocStep n bs bs' p) :
    ∃ xs l, bs = xs ++ l ∧ LeftFree xs l ∧
      bs' = xs ++ splitBlock (total Block.size l + blockSize n) (blockSize n) ∧
      p = 420 + total Block.size xs + 4 := by
  cases h with
  | fit hfits =>
      have hlt := hsmall _ (List.mem_append_right _ List.mem_cons_self)
      omega
  | extend _ hl => exact ⟨_, _, rfl, hl, rfl, rfl⟩

theorem splitBlock_self (s : ℕ) : splitBlock s s = [⟨s, .alloc⟩] := by
  rw [splitBlock, if_neg (by omega)]

/-- There is no free block. -/
theorem MallocStep.of_alloc {n p : ℕ} {bs bs' : List Block} (hbs : ∀ b ∈ bs, b.tag = .alloc)
    (h : MallocStep n bs bs' p) :
    bs' = bs ++ [⟨blockSize n, .alloc⟩] ∧ p = 420 + total Block.size bs + 4 := by
  have hsmall : ∀ s, ⟨s, .free⟩ ∈ bs → s < blockSize n := fun s hs => by cases hbs _ hs
  obtain ⟨xs, l, rfl, hl, rfl, rfl⟩ := h.of_small hsmall
  have hnil : l = [] := by
    rcases hl with ⟨hl, -⟩ | ⟨a, rfl⟩
    · exact hl
    · cases hbs ⟨a, .free⟩ (by simp)
  rw [hnil, total_nil, Nat.zero_add, splitBlock_self, List.append_nil]
  exact ⟨rfl, rfl⟩

/-- A block between allocated ones is freed. -/
theorem FreeStep.of_apart {p s : ℕ} {xs ys bs : List Block}
    (h : FreeStep p (xs ++ ⟨s, .alloc⟩ :: ys) bs) (hold : Settled (xs ++ ⟨s, .alloc⟩ :: ys))
    (hp : p = 420 + total Block.size xs + 4) (hnew : Settled (xs ++ ⟨s, .free⟩ :: ys)) :
    bs = xs ++ ⟨s, .free⟩ :: ys := by
  have hpos : ∀ c ∈ xs ++ ⟨s, .alloc⟩ :: ys, 0 < c.size := fun c hc =>
    lt_of_lt_of_le (by decide) (hold.sizes c hc).2
  rw [h.eq_merge hold, hp, release_singleton hpos, hnew.merge_eq]

end Malloc

namespace Driver

/-! ## Requests -/

theorem legalTrace_append {live : List ℕ} {ops ops' : List TraceOp} (h : LegalTrace live ops)
    (h' : LegalTrace (liveAfters live ops) ops') : LegalTrace live (ops ++ ops') := by
  induction ops generalizing live with
  | nil => exact h'
  | cons op ops ih => exact ⟨h.1, ih h.2 h'⟩

theorem liveAfters_append (live : List ℕ) (ops ops' : List TraceOp) :
    liveAfters live (ops ++ ops') = liveAfters (liveAfters live ops) ops' :=
  List.foldl_append

section

variable {t : Trial Heap} {live : List ℕ} {i : ℕ}

/-- The blocks of the heap. -/
def Trial.seq (t : Trial Heap) : List Block := Malloc.blocks t.mem

theorem MmInv.exists_seq (h : MmInv t live) : ∃ L, Inv t.mem (t.payloads live) t.seq L := by
  obtain ⟨bs, L, hinv⟩ := h.inv
  have hseq : t.seq = bs := hinv.rep.blocks_eq hinv.settled
  rw [hseq]
  exact ⟨L, hinv⟩

theorem MmInv.heapsize (h : MmInv t live) : memHeapsize t.mem = 424 + total Block.size t.seq := by
  obtain ⟨L, hinv⟩ := h.exists_seq
  exact hinv.rep.heapsize_eq

/-- **`a i n`**, with room for it. -/
theorem MmInv.alloc_seq (h : MmInv t live) {n : ℕ} (hi : i ∉ live) (hn : 0 < n)
    (hroom : 424 + total Block.size t.seq + n + 16 ≤ 2 ^ 24) (k : ℕ) :
    ∃ t', validStep mm k t (.alloc i n) = .ok t' ∧ MmInv t' (i :: live) ∧
      MallocStep n t.seq t'.seq (t'.blocks i) ∧ ∀ j ≠ i, t'.blocks j = t.blocks j := by
  obtain ⟨L, hinv⟩ := h.exists_seq
  have hsize : n < 2 ^ 31 := by omega
  have hlegal : Legal (t.payloads live) (.malloc n) := le_maxRequest hsize
  obtain ⟨m, p, hrun, hp, -⟩ := call_small hinv hlegal (by
    show memHeapsize t.mem + n + 16 ≤ 2 ^ 24
    rw [h.heapsize]
    exact hroom)
  have hp := hp hn
  obtain ⟨hadd, hinv'⟩ := h.alloc hi hn hsize hrun hp k
  refine ⟨remember mm t m (⟨p, p + n - 1⟩ :: t.ranges) i p n, ?_, hinv', ?_, fun j hj => ?_⟩
  · have hcall : mm.malloc t.mem n = some (m, p) := hrun
    rw [validStep]
    simp only [hcall, call, hadd, if_neg hp, bind, Except.bind]
    rfl
  · rcases hinv.call hlegal hrun with ⟨bs', L', hstep, hafter, -⟩ | ⟨-, hzero, -⟩
    · have hnew : (p, n) ∈ (Call.malloc n).after (t.payloads live) p := by
        rw [Call.after, if_neg hp]
        exact List.mem_cons_self
      have hfill := inv_fill hafter hnew (UInt8.ofNat (lowByte i))
      have hseq : (remember mm t m (⟨p, p + n - 1⟩ :: t.ranges) i p n).seq = bs' :=
        hfill.rep.blocks_eq hfill.settled
      rw [blocks_remember, Function.update_self, hseq]
      cases hstep with
      | mallocZero => exact absurd hn (lt_irrefl 0)
      | malloc _ hstep => exact hstep
    · exact absurd hzero hp
  · rw [blocks_remember, Function.update_of_ne hj]

/-- **`f i`**, when the heap is small enough. -/
theorem MmInv.free_seq (h : MmInv t live) (hi : i ∈ live)
    (hroom : 424 + total Block.size t.seq + 16 ≤ 2 ^ 24) (k : ℕ) :
    ∃ t', validStep mm k t (.free i) = .ok t' ∧ MmInv t' (live.erase i) ∧
      FreeStep (t.blocks i) t.seq t'.seq ∧ t'.blocks = t.blocks := by
  obtain ⟨L, hinv⟩ := h.exists_seq
  have hlegal : Legal (t.payloads live) (.free (t.blocks i)) :=
    List.mem_map_of_mem (mem_payloads hi)
  obtain ⟨m, p, hrun, -, -⟩ := call_small hinv hlegal (by
    show memHeapsize t.mem + 0 + 16 ≤ 2 ^ 24
    rw [h.heapsize]
    exact hroom)
  obtain ⟨hfree, rfl⟩ := run_free.mp hrun
  refine ⟨⟨m, removeRange (t.blocks i) t.ranges, t.blocks, t.blockSizes⟩, ?_, h.free hi hfree, ?_,
    rfl⟩
  · have hcall : mm.free t.mem (t.blocks i) = some m := hfree
    rw [validStep]
    simp only [hcall, call, bind, Except.bind]
    rfl
  · rcases hinv.call hlegal hrun with ⟨bs', L', hstep, hafter, -⟩ | ⟨-, -, -, k, hask, -⟩
    · have hseq : Trial.seq ⟨m, removeRange (t.blocks i) t.ranges, t.blocks, t.blockSizes⟩ = bs' :=
        hafter.rep.blocks_eq hafter.settled
      rw [hseq]
      cases hstep with
      | free hstep => exact hstep
    · cases hask

end

/-- A heap of zeroes. -/
def zeroes : Trial Heap := ⟨memInit 0 fun _ => 0, [], fun _ => 0, fun _ => 0⟩

theorem zeroes_start : zeroes.mem.memStartBrk = 0 := rfl

theorem zeroes_max : zeroes.mem.memMaxAddr = MAX_HEAP := by
  simp [zeroes, memInit]

/-! ## Runs -/

/-- A legal trace that has run so far. -/
structure Ran (ops : List TraceOp) (t₀ t : Trial Heap) : Prop where
  legal : LegalTrace [] ops
  run : validLoop mm 0 ops t₀ = .ok t
  inv : MmInv t (liveAfters [] ops)

section

variable {ops : List TraceOp} {t₀ t : Trial Heap} {i : ℕ}

theorem Ran.append {t' : Trial Heap} {op : TraceOp} (h : Ran ops t₀ t)
    (hop : LegalOp (liveAfters [] ops) op) (hrun : validStep mm (0 + ops.length) t op = .ok t')
    (hinv : MmInv t' (liveAfter (liveAfters [] ops) op)) : Ran (ops ++ [op]) t₀ t' := by
  refine ⟨legalTrace_append h.legal ⟨hop, trivial⟩, ?_, ?_⟩
  · rw [validLoop_append, h.run]
    show validLoop mm (0 + ops.length) [op] t = .ok t'
    rw [validLoop, hrun]
    rfl
  · rw [liveAfters_append]
    exact hinv

/-- One more block. -/
theorem Ran.alloc {n : ℕ} (h : Ran ops t₀ t) (hi : i ∉ liveAfters [] ops) (hn : 0 < n)
    (hroom : 424 + total Block.size t.seq + n + 16 ≤ 2 ^ 24) :
    ∃ t', Ran (ops ++ [.alloc i n]) t₀ t' ∧ MallocStep n t.seq t'.seq (t'.blocks i) ∧
      ∀ j ≠ i, t'.blocks j = t.blocks j := by
  obtain ⟨t', hrun, hinv, hstep, hother⟩ := h.inv.alloc_seq hi hn hroom (0 + ops.length)
  exact ⟨t', h.append ⟨hi, hn⟩ hrun hinv, hstep, hother⟩

/-- One block less. -/
theorem Ran.free (h : Ran ops t₀ t) (hi : i ∈ liveAfters [] ops)
    (hroom : 424 + total Block.size t.seq + 16 ≤ 2 ^ 24) :
    ∃ t', Ran (ops ++ [.free i]) t₀ t' ∧ FreeStep (t.blocks i) t.seq t'.seq ∧
      t'.blocks = t.blocks := by
  obtain ⟨t', hrun, hinv, hstep, hsame⟩ := h.inv.free_seq hi hroom (0 + ops.length)
  exact ⟨t', h.append hi hrun hinv, hstep, hsame⟩

/-- All blocks are freed: the heap keeps its bytes. -/
theorem Ran.frees {ids : List ℕ} (h : Ran ops t₀ t) (hids : ids.Perm (liveAfters [] ops))
    (hroom : 424 + total Block.size t.seq + 16 ≤ 2 ^ 24) :
    ∃ t', Ran (ops ++ ids.map .free) t₀ t' ∧ liveAfters [] (ops ++ ids.map .free) = [] ∧
      total Block.size t'.seq = total Block.size t.seq := by
  induction ids generalizing ops t with
  | nil =>
      refine ⟨t, ?_, ?_, rfl⟩
      · rw [List.map_nil, List.append_nil]
        exact h
      · rw [List.map_nil, List.append_nil]
        exact hids.symm.eq_nil
  | cons i ids ih =>
      have hi : i ∈ liveAfters [] ops := hids.mem_iff.mp List.mem_cons_self
      obtain ⟨t₁, h₁, hstep, -⟩ := h.free hi hroom
      have hrest : ids.Perm (liveAfters [] (ops ++ [.free i])) := by
        rw [liveAfters_append]
        have herase := hids.erase i
        rwa [List.erase_cons_head] at herase
      have htotal := hstep.total_eq
      obtain ⟨t', h', hend, heq⟩ := ih h₁ hrest (by omega)
      rw [List.append_assoc, List.singleton_append] at h' hend
      exact ⟨t', h', hend, heq.trans htotal⟩

end

end Driver
